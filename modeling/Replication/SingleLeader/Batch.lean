import Replication.SingleLeader.Cluster

/-!
# Single leader · Batch: when a batch is applied all or none

`WriteBatch` appends its entries one by one, each under the lock of the log, and sends them in one
message. Between two appends another call may append, and the message loop may answer a catch-up
request with the part of the batch that is in the log.

* All-or-none batches — in every state of such a run; in `halfSyncRun` a follower applies the first
  of two entries.
-/

set_option linter.unusedSectionVars false

namespace Replication.SingleLeader

open Storage Log Node Library List

variable {I K V : Type} [DecidableEq I] [DecidableEq K] [Inhabited V] {c c' : Call I K V} {a b : I}
  {e : LogEntry I K V} {i k : ℕ}

/-! ### Batches -/

/-- The entries of a call that are in the log, in order. -/
def Call.appended (c : Call I K V) : List (LogEntry I K V) := c.entries ++ c.pending.toList

/-- The log indices of a call. -/
def Call.indices (c : Call I K V) : List ℕ := c.appended.map LogEntry.index

/-- All operations of the call are in the log. -/
def Call.complete (c : Call I K V) : Bool := c.indices.length = c.call.ops.length

/-- Some operations of the call are in the log and some are not. -/
def Call.halfAppended (c : Call I K V) : Bool := c.indices ≠ [] ∧ c.complete = false

/-- The follower has applied no entry of the call, or the entries of all its operations. -/
def FollowerNode.AllOrNone (n : FollowerNode I K V) (c : Call I K V) : Prop :=
  (∀ i ∈ c.indices, ¬ i ≤ n.applied) ∨ (c.complete = true ∧ ∀ i ∈ c.indices, i ≤ n.applied)

instance (n : FollowerNode I K V) (c : Call I K V) : Decidable (n.AllOrNone c) :=
  inferInstanceAs (Decidable (_ ∨ _))

/-- While a batch is half appended, no other call appends and no catch-up request is answered. -/
def Cluster.batchQuiet (s : Cluster I K V) : Action I K V → Bool
  | .advance i _ =>
    match s.calls[i]? with
    | some ⟨_, _, _, .append _ _ _⟩ => (s.calls.eraseIdx i).all fun c => !c.halfAppended
    | _ => true
  | .deliver i =>
    match s.network[i]? with
    | some ⟨_, _, .sync _⟩ => s.calls.all fun c => !c.halfAppended
    | _ => true
  | _ => true

/-! ### Sets that do not split a call -/

/-- The set `P` of log indices has no index of the call, or those of all its operations. -/
def Whole (P : ℕ → Prop) (c : Call I K V) : Prop :=
  (∀ i ∈ c.indices, ¬ P i) ∨ (c.complete = true ∧ ∀ i ∈ c.indices, P i)

section whole

variable {P Q : ℕ → Prop} {c c' : Call I K V}

/-- Only the indices of the call matter. -/
lemma Whole.congr (h : Whole P c) (hPQ : ∀ i ∈ c.indices, P i ↔ Q i) : Whole Q c := by
  rcases h with h | ⟨hc, h⟩
  · exact .inl fun i hi hq => h i hi ((hPQ i hi).mpr hq)
  · exact .inr ⟨hc, fun i hi => (hPQ i hi).mp (h i hi)⟩

/-- Two sets that do not split a call have a union that does not. -/
lemma Whole.or (hP : Whole P c) (hQ : Whole Q c) : Whole (fun i => P i ∨ Q i) c := by
  rcases hP with hP | ⟨hc, hP⟩
  · refine hQ.congr fun i hi => ?_
    simp only [hP i hi, false_or]
  · exact .inr ⟨hc, fun i hi => .inl (hP i hi)⟩

/-- A set without indices of the call does not split it. -/
lemma whole_of_forall_not (h : ∀ i ∈ c.indices, ¬ P i) : Whole P c := .inl h

/-- Nothing splits a call with nothing in the log. -/
lemma whole_of_nil (h : c.indices = []) : Whole P c := by
  refine whole_of_forall_not fun i hi => ?_
  simp [h] at hi

/-- A call that was incomplete may append an index outside the set. -/
lemma Whole.concat (h : Whole P c) {x : ℕ} (hidx : c'.indices = c.indices ++ [x])
    (hinc : c.complete = false) (hx : ¬ P x) : Whole P c' := by
  rcases h with h | ⟨hcomp, -⟩
  · refine whole_of_forall_not fun i hi => ?_
    rw [hidx] at hi
    rcases mem_append.mp hi with hi | hi
    · exact h i hi
    · rw [mem_singleton.mp hi]
      exact hx
  · simp [hinc] at hcomp

/-- Only the appended entries and the operations of the call matter. -/
lemma Whole.of_eq (h : Whole P c) (happ : c'.appended = c.appended) (hcall : c'.call = c.call) :
    Whole P c' := by
  unfold Whole Call.complete Call.indices at h ⊢
  rw [happ, hcall]
  exact h

/-- Above an interval that a set does not split, the next index is in it or the whole interval is
below. -/
lemma whole_le_of_held {a b : ℕ} {n : FollowerNode I K V} (hidx : c.indices = List.range' a b)
    (h : Whole (fun i => i ≤ n.applied ∨ i ∈ n.pending) c) (hnext : n.applied + 1 ∉ n.pending) :
    Whole (fun i => i ≤ n.applied) c := by
  rcases h with h | ⟨hc, h⟩
  · exact .inl fun i hi hle => h i hi (.inl hle)
  by_cases hsome : ∃ i ∈ c.indices, i ≤ n.applied
  · obtain ⟨i, hi, hle⟩ := hsome
    refine .inr ⟨hc, fun j hj => ?_⟩
    by_contra hlt
    -- the index after the applied one lies in the interval, so it is held
    have hmem : n.applied + 1 ∈ c.indices := by
      rw [hidx, mem_range'_1] at hi hj ⊢
      omega
    rcases h _ hmem with hle' | hpend
    · omega
    · exact hnext hpend
  · exact .inl fun i hi hle => hsome ⟨i, hi, hle⟩

end whole

/-! ### What a section does to the entries of a call -/

/-- A section appends the next entry of the call, or leaves its entries alone; what is sent carries
the entries of a call with no operation left. -/
lemma LogStep.appended {l l' : SingleLeaderNode I K V} {out : List (Message I K V)}
    (h : LogStep l c l' c' out) :
    (∃ e op ts vc, c.phase = .append op ts vc ∧ e.index = l.log.nextIndex ∧
        l'.log = (l.log.append e).1 ∧ c'.appended = c.appended ++ [e] ∧ out = []) ∨
      l'.log.nextIndex = l.log.nextIndex ∧ c'.appended = c.appended ∧
        ∀ m ∈ out, c.remaining = 0 ∧ ∃ p q k, m = ⟨l.id, p, .appendEntries q c.appended k⟩ := by
  unfold Call.appended
  cases h with
  | append e op ts vc hphase he hpend hlog _ hpend' hentries hout =>
    refine .inl ⟨e, op, ts, vc, hphase, he, hlog, ?_, hout⟩
    simp [hpend, hpend', hentries]
  | commit i hlog _ hpend' hentries hout =>
    rw [hlog, hpend', hentries, hout]
    refine .inr ⟨?_, rfl, nofun⟩
    unfold ReplicationLog.setCommitIndex
    split_ifs <;> rfl
  | store e hphase hlog _ hpend' hentries hout =>
    rw [hlog, hpend', hentries, hout]
    refine .inr ⟨rfl, ?_, nofun⟩
    simp [Call.pending, hphase]
  | other hlog _ hpend hpend' hentries hout =>
    rw [hlog, hpend, hpend', hentries, Option.toList_none, append_nil]
    exact .inr ⟨rfl, rfl, hout⟩

/-- A section keeps the number of operations in the log and still to come. -/
lemma advance_count (l : SingleLeaderNode I K V) (c : Call I K V) (ts : ℤ) :
    (l.advance c ts).2.1.call = c.call ∧
      (l.advance c ts).2.1.appended.length + (l.advance c ts).2.1.remaining =
        c.appended.length + c.remaining := by
  obtain ⟨call, todo, entries, phase⟩ := c
  cases phase with
  | append =>
    simp [Call.appended, Call.pending, Call.remaining, SingleLeaderNode.advance]
    omega
  | store e =>
    cases todo <;> cases call <;> simp [Call.appended, Call.pending, Call.remaining,
      SingleLeaderNode.advance, ClientCall.afterStore]
  | getMode q peers => cases peers <;> exact ⟨rfl, rfl⟩
  | _ => exact ⟨rfl, rfl⟩

/-- A timeout changes nothing of a call that matters here. -/
lemma Call.expire_same (c : Call I K V) : c.expire.appended = c.appended ∧
    c.expire.call = c.call ∧ c.expire.remaining = c.remaining := by
  refine ⟨?_, ?_, ?_⟩
  · rw [Call.appended, Call.expire_entries, Call.expire_pending]
    rfl
  · unfold Call.expire
    split <;> rfl
  · unfold Call.expire
    split
    · rename_i hp
      rw [Call.remaining, Call.remaining, hp]
    · rfl

/-! ### What a follower holds -/

/-- A follower holds an index when it has applied or buffered it. -/
def FollowerNode.Holds (n : FollowerNode I K V) (i : ℕ) : Prop := i ≤ n.applied ∨ i ∈ n.pending

/-- Absorbing entries adds their indices to those a follower holds. -/
lemma holds_absorb_iff (n : FollowerNode I K V) (entries : List (LogEntry I K V)) (i : ℕ) :
    (n.absorb entries).Holds i ↔ n.Holds i ∨ ∃ e ∈ entries, e.index = i := by
  have hfold : ∀ (es : List (LogEntry I K V)) (n : FollowerNode I K V),
      (es.foldl FollowerNode.buffer n).Holds i ↔ n.Holds i ∨ ∃ e ∈ es, e.index = i := by
    intro es
    induction es with
    | nil => simp
    | cons e es ih =>
      intro n
      have hone : (n.buffer e).Holds i ↔ n.Holds i ∨ e.index = i := by
        unfold FollowerNode.buffer FollowerNode.Holds
        split_ifs with hle
        · constructor
          · exact .inl
          · rintro (h | rfl)
            · exact h
            · exact .inl hle
        · rw [AList.mem_insert]
          tauto
      rw [foldl_cons, ih, hone, exists_mem_cons_iff, or_assoc]
  rw [← hfold entries n]
  dsimp only [FollowerNode.absorb]
  rw [FollowerNode.applyRounds_eq]
  exact held_release_iff

/-- A reaction leaves what a follower holds, or adds the entries of a message. -/
lemma holds_reacts {n n' : FollowerNode I K V} {inp : FollowerInput I K V}
    {out : List (Message I K V)} (h : n.Reacts inp n' out) :
    (∀ i, n'.Holds i ↔ n.Holds i) ∨
      ∃ a b q es k, inp = .receive ⟨a, b, .appendEntries q es k⟩ ∧
        ∀ i, n'.Holds i ↔ n.Holds i ∨ ∃ e ∈ es, e.index = i := by
  cases h with
  | idle | repair => exact .inl fun i => Iff.rfl
  | absorb a b q es k => exact .inr ⟨a, b, q, es, k, rfl, fun i => holds_absorb_iff n es i⟩

/-! ### The invariant -/

/-- The entries of a message do not split a call, and no catch-up request asks from inside one. -/
def Message.Unsplit (calls : List (Call I K V)) (next : ℕ) (m : Message I K V) : Prop :=
  match m.body with
  | .appendEntries _ es _ => ∀ c ∈ calls, Whole (fun i => ∃ e ∈ es, e.index = i) c
  | .sync k => 0 < k ∧ k ≤ next ∧ ∀ c ∈ calls, Whole (fun i => i < k) c
  | _ => True

/-- Messages about the old log stay unsplit when the log and the calls grow. -/
lemma Message.Unsplit.mono {m : Message I K V} {calls calls' : List (Call I K V)}
    {next next' : ℕ} (h : m.Unsplit calls next) (hle : next ≤ next')
    (hindex : ∀ q es k, m.body = .appendEntries q es k → ∀ e ∈ es, e.index < next)
    (hall : ∀ P : ℕ → Prop, (∀ k, P k → k < next) → (∀ c ∈ calls, Whole P c) →
      ∀ c ∈ calls', Whole P c) : m.Unsplit calls' next' := by
  unfold Message.Unsplit at h ⊢
  cases hb : m.body with
  | appendEntries q es k =>
    rw [hb] at h
    refine hall _ (fun i hi => ?_) h
    obtain ⟨e, he, rfl⟩ := hi
    exact hindex q es k hb e he
  | sync =>
    rw [hb] at h
    exact ⟨h.1, h.2.1.trans hle, hall _ (fun i hi => lt_of_lt_of_le hi h.2.1) h.2.2⟩
  | appendAck | readRepair => trivial

/-- New calls that no set splits, if it splits no old one, are not split by a message. -/
lemma Message.Unsplit.of_calls {m : Message I K V} {calls calls' : List (Call I K V)} {next : ℕ}
    (h : m.Unsplit calls next)
    (hall : ∀ {P : ℕ → Prop}, (∀ c ∈ calls, Whole P c) → ∀ c ∈ calls', Whole P c) :
    m.Unsplit calls' next := by
  unfold Message.Unsplit at h ⊢
  split at h
  · exact hall h
  · exact ⟨h.1, h.2.1, hall h.2.2⟩
  · trivial

/-- Calls occupy intervals of the log that nothing splits. -/
structure BatchInv (s : Cluster I K V) : Prop where
  /-- What is in the log and what is not make up the call. -/
  remaining : ∀ c ∈ s.calls, c.indices.length + c.remaining = c.call.ops.length
  /-- The indices of a call are an interval, at the end of the log while it is half appended. -/
  interval : ∀ c ∈ s.calls, ∃ a, c.indices = List.range' a c.indices.length ∧
    (c.halfAppended = true → a + c.indices.length = s.leader.log.nextIndex)
  /-- Two calls have no index in common. -/
  disjoint : ∀ (i j : ℕ) (c c' : Call I K V), s.calls[i]? = some c → s.calls[j]? = some c' →
    i ≠ j → ∀ k ∈ c.indices, k ∉ c'.indices
  held : ∀ f, ∀ c ∈ s.calls, Whole (s.followers f).Holds c
  network : ∀ m ∈ s.network, m.Unsplit s.calls s.leader.log.nextIndex

/-- A new cluster meets the invariant. -/
lemma batchInv_init (leaderID : I) (mode : ReplicationMode) (peers : List I) :
    BatchInv (Cluster.init leaderID mode peers : Cluster I K V) where
  remaining _ hc := absurd hc not_mem_nil
  interval _ hc := absurd hc not_mem_nil
  disjoint i j c c' hc := by
    intros
    cases hc
  held _ _ hc := absurd hc not_mem_nil
  network _ hm := absurd hm not_mem_nil

section inv

variable {s s' : Cluster I K V}

/-- Entries of a log have positive indices below the next one. -/
lemma index_lt_nextIndex {l : ReplicationLog I K V} (h : Represents l l.entries)
    (he : e ∈ l.entries) : 0 < e.index ∧ e.index < l.nextIndex := by
  obtain ⟨j, hj⟩ := mem_iff_getElem?.mp he
  have hidx := h.index_eq (j + 1) e hj
  have hlt := (List.getElem?_eq_some_iff.mp hj).1
  have := h.next_eq
  omega

section

variable (h : ClusterInv s)

include h

/-- What a call has appended is in the log. -/
lemma ClusterInv.mem_of_mem_appended (hc : c ∈ s.calls) (he : e ∈ c.appended) :
    e ∈ s.leader.log.entries := by
  rcases mem_append.mp he with he | he
  · exact h.entries c hc e he
  · exact h.pending c hc e (Option.mem_toList.mp he)

/-- The indices of a call are in the log. -/
lemma ClusterInv.index_lt (hc : c ∈ s.calls) (hi : i ∈ c.indices) :
    0 < i ∧ i < s.leader.log.nextIndex := by
  obtain ⟨e, he, rfl⟩ := mem_map.mp hi
  exact index_lt_nextIndex h.rep (h.mem_of_mem_appended hc he)

/-- The indices of a message are in the log. -/
lemma ClusterInv.index_lt_of_message {m : Message I K V} (hm : m ∈ s.network) (q : ℕ)
    (es : List (LogEntry I K V)) (k : ℕ) (hb : m.body = .appendEntries q es k) (e : LogEntry I K V)
    (he : e ∈ es) : e.index < s.leader.log.nextIndex := by
  have hcopy := h.copies m hm
  unfold Message.Copies at hcopy
  rw [hb] at hcopy
  exact (index_lt_nextIndex h.rep (hcopy e he)).2

/-- A follower holds only indices of the log. -/
lemma ClusterInv.lt_of_holds {f : I} (hi : (s.followers f).Holds i) :
    i < s.leader.log.nextIndex := by
  have hnext := h.rep.next_eq
  rcases hi with hi | hi
  · have := (h.follows f).applied_le
    omega
  · obtain ⟨e, he⟩ := Option.isSome_iff_exists.mp (AList.lookup_isSome.mpr hi)
    have := entryAt_bounds ((h.follows f).pending i e he).2
    omega

end

/-- What a follower has applied does not split a call. -/
lemma BatchInv.whole_applied (h : BatchInv s) (hC : ClusterInv s) (f : I) (hc : c ∈ s.calls) :
    Whole (fun i => i ≤ (s.followers f).applied) c := by
  obtain ⟨a, hidx, -⟩ := h.interval c hc
  refine whole_le_of_held hidx (h.held f c hc) fun hmem => ?_
  obtain ⟨e, he⟩ := Option.isSome_iff_exists.mp (AList.lookup_isSome.mpr hmem)
  have := ((hC.follows f).pending _ e he).1
  omega

/-- A call that has appended something and is not half appended is complete. -/
lemma Call.complete_of_not_half (h : c.halfAppended = false) (hi : i ∈ c.indices) :
    c.complete = true := by
  by_contra hne
  rw [Bool.not_eq_true] at hne
  rw [Call.halfAppended, decide_eq_false_iff_not] at h
  exact h ⟨ne_nil_of_mem hi, hne⟩

/-- Steps that leave the log and the entries of calls alone. -/
lemma BatchInv.frame (h : BatchInv s) (hnext : s'.leader.log.nextIndex = s.leader.log.nextIndex)
    (hcalls : ∀ (i : ℕ) (c' : Call I K V), s'.calls[i]? = some c' → ∃ c, s.calls[i]? = some c ∧
      c'.appended = c.appended ∧ c'.call = c.call ∧ c'.remaining = c.remaining)
    (hheld : ∀ f, ∀ c ∈ s.calls, Whole (s'.followers f).Holds c)
    (hnet : ∀ m ∈ s'.network, m.Unsplit s.calls s.leader.log.nextIndex) : BatchInv s' := by
  have hmem : ∀ c' ∈ s'.calls, ∃ c ∈ s.calls,
      c'.appended = c.appended ∧ c'.call = c.call ∧ c'.remaining = c.remaining := by
    intro c' hc'
    obtain ⟨i, hi⟩ := mem_iff_getElem?.mp hc'
    obtain ⟨c, hc, hrest⟩ := hcalls i c' hi
    exact ⟨c, mem_of_getElem? hc, hrest⟩
  have hidx : ∀ {c c' : Call I K V}, c'.appended = c.appended → c'.indices = c.indices :=
    fun happ => congrArg (List.map LogEntry.index) happ
  constructor
  · intro c' hc'
    obtain ⟨c, hc, happ, hcall, hrem⟩ := hmem c' hc'
    rw [hidx happ, hcall, hrem]
    exact h.remaining c hc
  · intro c' hc'
    obtain ⟨c, hc, happ, hcall, -⟩ := hmem c' hc'
    have hhalf : c'.halfAppended = c.halfAppended := by
      unfold Call.halfAppended Call.complete
      rw [hidx happ, hcall]
    rw [hidx happ, hhalf, hnext]
    exact h.interval c hc
  · intro i j c₁ c₂ hi hj hne
    obtain ⟨c, hc, happ, -⟩ := hcalls i c₁ hi
    obtain ⟨c', hc', happ', -⟩ := hcalls j c₂ hj
    rw [hidx happ, hidx happ']
    exact h.disjoint i j c c' hc hc' hne
  · intro f c' hc'
    obtain ⟨c, hc, happ, hcall, -⟩ := hmem c' hc'
    exact (hheld f c hc).of_eq happ hcall
  · intro m hm
    rw [hnext]
    refine (hnet m hm).of_calls fun hP c' hc' => ?_
    obtain ⟨c, hc, happ, hcall, -⟩ := hmem c' hc'
    exact (hP c hc).of_eq happ hcall

/-! ### Steps -/

section

variable (h : BatchInv s)

include h

/-- The next append extends the interval of the call, up to the new end of the log. -/
lemma BatchInv.interval_concat (hc : c ∈ s.calls)
    (hidx : c'.indices = c.indices ++ [s.leader.log.nextIndex]) (hinc : c.complete = false) :
    ∃ a, c'.indices = List.range' a c'.indices.length ∧
      a + c'.indices.length = s.leader.log.nextIndex + 1 := by
  obtain ⟨a, hrange, hend⟩ := h.interval c hc
  by_cases hnil : c.indices = []
  · rw [hidx, hnil]
    exact ⟨s.leader.log.nextIndex, rfl, rfl⟩
  -- the call was half appended, so its interval ends where the log does
  have hlast := hend (decide_eq_true ⟨hnil, hinc⟩)
  refine ⟨a, ?_, ?_⟩
  · rw [hidx, length_append, length_singleton, range'_concat, Nat.one_mul, hlast, ← hrange]
  · rw [hidx, length_append, length_singleton]
    omega

/-- The next append takes no index of another call. -/
lemma BatchInv.disjoint_concat (hC : ClusterInv s) {j : ℕ} {c₂ : Call I K V}
    (hc : s.calls[i]? = some c) (hj : s.calls[j]? = some c₂) (hne : j ≠ i)
    (hidx : c'.indices = c.indices ++ [s.leader.log.nextIndex]) {x : ℕ} (hx : x ∈ c₂.indices) :
    x ∉ c'.indices := by
  have hlt := (hC.index_lt (mem_of_getElem? hj) hx).2
  intro hx'
  rw [hidx] at hx'
  rcases mem_append.mp hx' with hx' | hx'
  · exact h.disjoint j i c₂ c hj hc hne x hx hx'
  · rw [mem_singleton] at hx'
    omega

/-- The next append of a call keeps the invariant, when no other call is half appended. -/
lemma BatchInv.append (hC : ClusterInv s) (hc : s.calls[i]? = some c) {l : SingleLeaderNode I K V}
    (he : e.index = s.leader.log.nextIndex) (hlog : l.log = (s.leader.log.append e).1)
    (happ : c'.appended = c.appended ++ [e])
    (hrem : c'.appended.length + c'.remaining = c.appended.length + c.remaining)
    (hcall : c'.call = c.call)
    (hquiet : ∀ (j : ℕ) (c₂ : Call I K V), s.calls[j]? = some c₂ → j ≠ i →
      c₂.halfAppended = false) : BatchInv { s with leader := l, calls := s.calls.set i c' } := by
  have hmem := mem_of_getElem? hc
  have hidx : c'.indices = c.indices ++ [s.leader.log.nextIndex] := by
    rw [Call.indices, happ, map_append, map_singleton, he]
    rfl
  have hnext : l.log.nextIndex = s.leader.log.nextIndex + 1 := by
    rw [hlog]
    rfl
  rw [happ, length_append, length_singleton] at hrem
  have hcount := h.remaining c hmem
  have hinc : c.complete = false := by
    rw [Call.complete, decide_eq_false_iff_not]
    omega
  -- every set of indices of the old log leaves the new call whole
  have hall : ∀ P : ℕ → Prop, (∀ k, P k → k < s.leader.log.nextIndex) →
      (∀ c ∈ s.calls, Whole P c) → ∀ c ∈ s.calls.set i c', Whole P c := by
    intro P hP hw c₂ hc₂
    rcases mem_or_eq_of_mem_set hc₂ with hc₂ | rfl
    · exact hw c₂ hc₂
    · exact (hw c hmem).concat hidx hinc fun hx => lt_irrefl _ (hP _ hx)
  constructor
  · intro c₂ hc₂
    rcases mem_or_eq_of_mem_set hc₂ with hc₂ | rfl
    · exact h.remaining c₂ hc₂
    · rw [hidx, hcall, length_append, length_singleton]
      omega
  · intro c₂ hc₂
    obtain ⟨j, hj⟩ := mem_iff_getElem?.mp hc₂
    rcases getElem?_set_inv hj with ⟨-, rfl⟩ | ⟨hne, hj⟩
    · obtain ⟨a, hrange, hend⟩ := h.interval_concat hmem hidx hinc
      exact ⟨a, hrange, fun _ => hend.trans hnext.symm⟩
    · obtain ⟨a, hrange, -⟩ := h.interval c₂ (mem_of_getElem? hj)
      refine ⟨a, hrange, fun hhalf => ?_⟩
      simp [hquiet j c₂ hj hne] at hhalf
  · intro j k c₁ c₂ hj hk hne x hx
    rcases getElem?_set_inv hj with ⟨rfl, rfl⟩ | ⟨hji, hj'⟩
    · rcases getElem?_set_inv hk with ⟨rfl, -⟩ | ⟨hki, hk'⟩
      · exact absurd rfl hne
      · exact fun hx₂ => h.disjoint_concat hC hc hk' hki hidx hx₂ hx
    · rcases getElem?_set_inv hk with ⟨rfl, rfl⟩ | ⟨-, hk'⟩
      · exact h.disjoint_concat hC hc hj' hji hidx hx
      · exact h.disjoint j k c₁ c₂ hj' hk' hne x hx
  · exact fun f => hall _ (fun k hk => hC.lt_of_holds hk) (h.held f)
  · intro m hm
    exact (h.network m hm).mono (hnext ▸ Nat.le_succ _) (hC.index_lt_of_message hm) hall

/-- The message of a call with no operation left carries all of it and no other call. -/
lemma BatchInv.unsplit_messages (hc : s.calls[i]? = some c) (hrem : c.remaining = 0) {q : ℕ} :
    (⟨a, b, .appendEntries q c.appended k⟩ : Message I K V).Unsplit s.calls
      s.leader.log.nextIndex := by
  intro c₂ hc₂
  have hcount := h.remaining c (mem_of_getElem? hc)
  obtain ⟨j, hj⟩ := mem_iff_getElem?.mp hc₂
  by_cases hji : j = i
  · subst hji
    rw [hc, Option.some.injEq] at hj
    subst hj
    refine .inr ⟨decide_eq_true (by omega), fun x hx => ?_⟩
    obtain ⟨e, he, rfl⟩ := mem_map.mp hx
    exact ⟨e, he, rfl⟩
  · refine whole_of_forall_not fun x hx => ?_
    rintro ⟨e, he, rfl⟩
    exact h.disjoint j i c₂ c hj hc hji _ hx (mem_map_of_mem he)

/-- A section of a call keeps the invariant, if it meets the condition. -/
lemma BatchInv.advance (hC : ClusterInv s) (hc : s.calls[i]? = some c) {ts : ℤ}
    (hq : s.batchQuiet (.advance i ts) = true) : BatchInv (s.advance i c ts) := by
  have hstep := (advance_logStep s.leader c ts).appended
  obtain ⟨hcall, hcount⟩ := advance_count s.leader c ts
  unfold Cluster.advance
  generalize s.leader.advance c ts = r at hstep hcall hcount ⊢
  obtain ⟨l', c', out⟩ := r
  rcases hstep with ⟨e, op, ts', vc, hphase, he, hlog, happ, hout⟩ | ⟨hnext, happ, hout⟩
  · dsimp only at hout ⊢
    rw [hout, append_nil]
    refine h.append hC hc he hlog happ hcount hcall fun j c₂ hj hne => ?_
    obtain ⟨call, todo, entries, phase⟩ := c
    rw [Cluster.batchQuiet, hc, show phase = _ from hphase] at hq
    have hmem : c₂ ∈ s.calls.eraseIdx i := mem_eraseIdx_iff_getElem?.mpr ⟨j, hne, hj⟩
    simpa using all_eq_true.mp hq c₂ hmem
  · have hrem : c'.remaining = c.remaining := Nat.add_left_cancel (happ ▸ hcount)
    refine h.frame hnext (fun j c₂ hj => ?_) (fun f c hc => h.held f c hc) fun m hm => ?_
    · rcases getElem?_set_inv hj with ⟨rfl, rfl⟩ | ⟨-, hj⟩
      · exact ⟨c, hc, happ, hcall, hrem⟩
      · exact ⟨c₂, hj, rfl, rfl, rfl⟩
    · rcases mem_append.mp hm with hm | hm
      · exact h.network m hm
      · obtain ⟨hzero, p, q, k, rfl⟩ := hout m hm
        exact h.unsplit_messages hc hzero

/-- A step of a follower keeps the invariant. -/
lemma BatchInv.reactFollower (hC : ClusterInv s) (f : I) {inp : FollowerInput I K V}
    (hcopy : inp.Copies s.leader.log.entries)
    (hin : ∀ m, inp = .receive m → m.Unsplit s.calls s.leader.log.nextIndex) :
    BatchInv (s.reactFollower f inp) := by
  have hC' := hC.reactFollower f hcopy
  have hr := reacts_react (s.followers f) inp
  have hheld : ∀ g, ∀ c ∈ s.calls, Whole ((s.reactFollower f inp).followers g).Holds c := by
    refine forall_reactFollower (fun _ n => ∀ c ∈ s.calls, Whole n.Holds c) (fun c hc => ?_) h.held
    rcases holds_reacts hr with hiff | ⟨a, b, q, es, k, rfl, hiff⟩
    · exact (h.held f c hc).congr fun i _ => (hiff i).symm
    · exact ((h.held f c hc).or (hin _ rfl c hc)).congr fun i _ => (hiff i).symm
  -- without the new messages
  have hold : BatchInv { s.reactFollower f inp with network := s.network } :=
    h.frame rfl (fun i c' hi => ⟨c', hi, rfl, rfl, rfl⟩) hheld h.network
  refine h.frame rfl (fun i c' hi => ⟨c', hi, rfl, rfl, rfl⟩) hheld fun m hm => ?_
  rcases mem_append.mp hm with hm | hm
  · exact h.network m hm
  rcases hr.out hm with ⟨q, rfl⟩ | rfl
  · trivial
  -- a new request asks from the index after the applied one
  have hle : ((s.reactFollower f inp).followers f).applied ≤ s.leader.log.entries.length :=
    (hC'.follows f).applied_le
  have hnext : s.leader.log.nextIndex = s.leader.log.entries.length + 1 := hC.rep.next_eq
  rw [← reactFollower_self]
  refine ⟨Nat.succ_pos _, by omega, fun c hc => ?_⟩
  refine (hold.whole_applied (hC'.of_network fun m hm => mem_append_left _ hm) f hc).congr
    fun i _ => ?_
  exact Nat.lt_succ_iff.symm

end

/-- The answer to a catch-up request has the indices of the log from `k` on. -/
lemma exists_mem_getFrom_iff (hC : ClusterInv s) (hk : 0 < k) (hi : 0 < i)
    (hlt : i < s.leader.log.nextIndex) : (∃ e ∈ s.leader.log.getFrom k, e.index = i) ↔ k ≤ i := by
  have hnext := hC.rep.next_eq
  rw [hC.rep.getFrom_eq (by rw [hC.boundary]; exact hk)]
  constructor
  · rintro ⟨e, he, rfl⟩
    obtain ⟨j, hj⟩ := mem_iff_getElem?.mp he
    rw [getElem?_drop] at hj
    have := hC.rep.index_eq (k - 1 + j + 1) e hj
    omega
  · intro hle
    obtain ⟨e, he⟩ := exists_entryAt (ℓ := s.leader.log.entries) hi (by omega)
    refine ⟨e, mem_iff_getElem?.mpr ⟨i - k, ?_⟩, hC.rep.index_eq i e he⟩
    have hpos : k - 1 + (i - k) + 1 = i := by omega
    rw [getElem?_drop, ← entryAt_succ, hpos]
    exact he

/-- With no call half appended, such an answer splits none. -/
lemma unsplit_getFrom (hC : ClusterInv s) (hk : 0 < k)
    (hw : ∀ c ∈ s.calls, Whole (fun i => i < k) c) (hquiet : ∀ c ∈ s.calls, c.halfAppended = false)
    {q j : ℕ} :
    (⟨a, b, .appendEntries q (s.leader.log.getFrom k) j⟩ : Message I K V).Unsplit s.calls
      s.leader.log.nextIndex := by
  intro c hc
  have hiff : ∀ i ∈ c.indices, (∃ e ∈ s.leader.log.getFrom k, e.index = i) ↔ k ≤ i := fun i hi =>
    exists_mem_getFrom_iff hC hk (hC.index_lt hc hi).1 (hC.index_lt hc hi).2
  rcases hw c hc with hlow | ⟨-, hhigh⟩
  · by_cases hnil : c.indices = []
    · exact whole_of_nil hnil
    · obtain ⟨i, hi⟩ := exists_mem_of_ne_nil _ hnil
      refine .inr ⟨Call.complete_of_not_half (hquiet c hc) hi, fun i hi => ?_⟩
      exact (hiff i hi).mpr (Nat.not_lt.mp (hlow i hi))
  · refine whole_of_forall_not fun i hi hmem => ?_
    have := (hiff i hi).mp hmem
    have := hhigh i hi
    omega

section

variable (h : BatchInv s)

include h

/-- A delivered message keeps the invariant. -/
lemma BatchInv.receive (hC : ClusterInv s) {msg : Message I K V}
    (hcopy : msg.Copies s.leader.log.entries) (hun : msg.Unsplit s.calls s.leader.log.nextIndex)
    (hquiet : ∀ k, msg.body = .sync k → ∀ c ∈ s.calls, c.halfAppended = false) :
    BatchInv (s.receive msg) := by
  unfold Cluster.receive
  split_ifs
  · obtain ⟨⟨chs, hl⟩, hout⟩ := handleMessage_frame s.leader msg
    refine h.frame (by rw [hl]) (fun i c' hi => ⟨c', hi, rfl, rfl, rfl⟩)
      (fun f c hc => h.held f c hc) fun m hm => ?_
    rcases mem_append.mp hm with hm | hm
    · exact h.network m hm
    obtain ⟨k, j, hb, rfl⟩ := hout m hm
    unfold Message.Unsplit at hun
    rw [hb] at hun
    exact unsplit_getFrom hC hun.1 hun.2.2 (hquiet k hb)
  · refine h.reactFollower hC _ hcopy fun m hm => ?_
    cases hm
    exact hun

/-- Losing messages keeps the invariant. -/
lemma BatchInv.of_network {network : List (Message I K V)} (hnet : ∀ m ∈ network, m ∈ s.network) :
    BatchInv { s with network := network } :=
  { h with network := fun m hm => h.network m (hnet m hm) }

/-- A new call has nothing in the log. -/
lemma BatchInv.invoke {call : ClientCall K V} (hc : call.start s.leader = some c) :
    BatchInv { s with calls := s.calls ++ [c] } := by
  have hops : c.remaining = c.call.ops.length := by
    unfold ClientCall.start at hc
    split_ifs at hc
    split at hc
    · cases hc
    rename_i op todo hops
    cases hc
    show todo.length + 1 = call.ops.length
    rw [hops, length_cons]
  have hnil : c.indices = [] := by
    obtain ⟨op, todo, rfl⟩ := ClientCall.exists_of_start hc
    rfl
  have hall : ∀ {P : ℕ → Prop}, (∀ c ∈ s.calls, Whole P c) → ∀ x ∈ s.calls ++ [c], Whole P x := by
    intro P hP x hx
    rcases mem_append.mp hx with hx | hx
    · exact hP x hx
    · rw [mem_singleton.mp hx]
      exact whole_of_nil hnil
  have hget : ∀ {j : ℕ} {x : Call I K V}, (s.calls ++ [c])[j]? = some x →
      s.calls[j]? = some x ∨ x.indices = [] := by
    intro j x hj
    rcases getElem?_concat_inv hj with ⟨-, rfl⟩ | hj
    · exact .inr hnil
    · exact .inl hj
  constructor
  · intro x hx
    rcases mem_append.mp hx with hx | hx
    · exact h.remaining x hx
    · rw [mem_singleton.mp hx, hnil, hops]
      exact Nat.zero_add _
  · intro x hx
    rcases mem_append.mp hx with hx | hx
    · exact h.interval x hx
    · rw [mem_singleton.mp hx, hnil]
      refine ⟨0, rfl, fun hhalf => ?_⟩
      exact absurd hnil (of_decide_eq_true hhalf).1
  · intro i j c₁ c₂ hi hj hne k hk
    rcases hget hi with hi | hi
    · rcases hget hj with hj | hj
      · exact h.disjoint i j c₁ c₂ hi hj hne k hk
      · rw [hj]
        exact not_mem_nil
    · simp [hi] at hk
  · exact fun f => hall (h.held f)
  · exact fun m hm => (h.network m hm).of_calls hall

/-- **Every step that meets the condition keeps the invariant.** -/
theorem batchInv_step (hC : ClusterInv s) {a : Action I K V} (hq : s.batchQuiet a = true) :
    BatchInv (s.step a) := by
  have hmove := s.move_step a
  generalize s.step a = s' at hmove ⊢
  cases hmove with
  | idle => exact h
  | invoke call c hc => exact h.invoke hc
  | advance i ts c ha hc => exact h.advance hC hc (ha ▸ hq)
  | expire i c hc =>
    refine h.frame rfl (fun j c' hj => ?_) (fun f c hc => h.held f c hc) h.network
    rcases getElem?_set_inv hj with ⟨rfl, rfl⟩ | ⟨-, hj⟩
    · exact ⟨c, hc, c.expire_same⟩
    · exact ⟨c', hj, rfl, rfl, rfl⟩
  | deliver i msg ha hm =>
    have hsub : ∀ m ∈ s.network.eraseIdx i, m ∈ s.network :=
      fun m hm => mem_of_mem_eraseIdx hm
    have hmem := mem_of_getElem? hm
    refine (h.of_network hsub).receive (hC.of_network hsub) (hC.copies msg hmem)
      (h.network msg hmem) fun k hb c hc => ?_
    obtain ⟨a, b, body⟩ := msg
    rw [ha, Cluster.batchQuiet, hm, show body = .sync k from hb] at hq
    simpa using all_eq_true.mp hq c hc
  | drop i => exact h.of_network fun m hm => mem_of_mem_eraseIdx hm
  | react f inp hinp =>
    refine h.reactFollower hC f ?_ fun m hm => absurd hm (hinp m)
    cases inp with
    | receive msg => exact absurd rfl (hinp msg)
    | _ => trivial
  | config =>
    exact h.frame rfl (fun i c' hi => ⟨c', hi, rfl, rfl, rfl⟩) (fun f c hc => h.held f c hc)
      h.network

end

end inv

/-! ### All-or-none batches -/

/-- **Followers apply batches all or none** in runs that meet the condition: in every state, every
follower has applied none of the entries of a call, or the entries of all its operations. -/
theorem batch_all_or_none (leaderID : I) (mode : ReplicationMode) (peers : List I)
    (as : List (Action I K V))
    (h : Along Cluster.step (fun s a => s.batchQuiet a = true)
      (Cluster.init leaderID mode peers) as)
    (c : Call I K V) (hc : c ∈ (run Cluster.step (Cluster.init leaderID mode peers) as).calls)
    (f : I) :
    ((run Cluster.step (Cluster.init leaderID mode peers) as).followers f).AllOrNone c := by
  obtain ⟨hC, hB⟩ := run_invariant (fun s => ClusterInv s ∧ BatchInv s)
    (fun s a hq hs => ⟨clusterInv_step hs.1 a, batchInv_step hs.2 hs.1 hq⟩) h
    ⟨clusterInv_init leaderID mode peers, batchInv_init leaderID mode peers⟩
  exact hB.whole_applied hC f hc

/-- A batch of two entries that follower `1` applies. -/
def batchRun : List (Action ℕ ℕ ℕ) :=
  [Action.invoke (.writeBatch [(7, 10), (8, 20)])] ++ List.replicate 12 (Action.advance 0 0) ++
    [Action.deliver 0]

/-- Both entries of the batch are applied. -/
theorem batch_all_or_none_two :
    ∃ c ∈ (run Cluster.step (Cluster.init 0 .async [1]) batchRun).calls,
      c.indices = [1, 2] ∧
      ((run Cluster.step (Cluster.init 0 .async [1]) batchRun).followers 1).applied = 2 ∧
      ((run Cluster.step (Cluster.init 0 .async [1]) batchRun).followers 1).AllOrNone c := by
  have hcall : ((run Cluster.step (Cluster.init 0 .async [1]) batchRun).calls.any fun c =>
      decide (c.indices = [1, 2])) = true := by
    decide +kernel
  obtain ⟨c, hc, hidx⟩ := any_eq_true.mp hcall
  exact ⟨c, hc, of_decide_eq_true hidx, by decide +kernel,
    batch_all_or_none 0 .async [1] batchRun (by decide +kernel) c hc 1⟩

/-- The leader answers a catch-up request of follower `1` between the two appends of a batch. -/
def halfSyncRun : List (Action ℕ ℕ ℕ) :=
  [Action.invoke (.writeBatch [(7, 10), (8, 20)]), .advance 0 0, .advance 0 0, .syncTick 1,
    .deliver 0, .deliver 0]

/-- The follower has then applied the first of the two entries. -/
theorem half_batch_applied :
    Along Cluster.step (fun s a => s.fifo a = true) (Cluster.init 0 .async [1]) halfSyncRun ∧
    (run Cluster.step (Cluster.init 0 .async [1]) halfSyncRun).calls.all (fun c =>
      decide (c.call.ops.length = 2 ∧ c.indices = [1] ∧
        ¬ ((run Cluster.step (Cluster.init 0 .async [1]) halfSyncRun).followers 1).AllOrNone c))
      = true ∧
    (run Cluster.step (Cluster.init 0 .async [1]) halfSyncRun).calls.length = 1 ∧
    ((run Cluster.step (Cluster.init 0 .async [1]) halfSyncRun).followers 1).applied = 1 := by
  decide +kernel

end Replication.SingleLeader
