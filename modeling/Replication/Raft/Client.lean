import Replication.Raft.Snapshot

/-!
# Raft · Client: what a successful call means

`proposeAndWait` returns success as soon as the node's commit index reaches the index of the
proposal. It does not look at the entry there.
-/

set_option linter.unusedSectionVars false

namespace Replication.Raft

open Storage Log Node Library Function List
open Library.Ledger

variable {N : ℕ} {K V : Type} [DecidableEq K] [Inhabited V] {c : Call N K V} {i : ℕ}
  {m : Message N K V}

/-! ### The condition -/

/-- Handling the message would replace the entry at index `i`, or one below it. -/
def RaftNode.overwrites (n : RaftNode N K V) (i : ℕ) (m : Message N K V) : Bool :=
  match m.body with
  | .appendEntries p pt es _ =>
    decide (n.currentTerm ≤ m.term) && n.log.matches p pt &&
      es.any fun e => decide (n.log.snapshotIndex < e.index ∧ e.index ≤ i ∧
        n.log.termAt e.index ≠ e.term)
  | .installSnap j _ _ _ => decide (n.currentTerm ≤ m.term ∧ n.log.snapshotIndex < j)
  | _ => false

/-- A delivery that overwrites no entry a call at the receiver is waiting for. -/
def Cluster.undisturbed (s : Cluster N K V) : Action N K V → Bool
  | .deliver i =>
    match s.network[i]? with
    | none => true
    | some m => (s.nodes m.targetID).state.isPaused || s.calls.all fun c =>
      decide (c.node = m.targetID → c.status = .waiting →
        (s.nodes m.targetID).overwrites c.entry.index m = false)
  | _ => true

/-- What an undisturbed delivery means for a waiting call. -/
lemma overwrites_of_undisturbed {s : Cluster N K V} {a : Action N K V}
    (hu : s.undisturbed a = true) (h : s.input a = some (c.node, .receive m))
    (hon : (s.nodes c.node).state.isPaused = false) (hc : c ∈ s.calls) (hw : c.status = .waiting) :
    (s.nodes c.node).overwrites c.entry.index m = false := by
  obtain ⟨i, rfl, hm, hn⟩ := Cluster.deliver_of_input_receive h
  unfold Cluster.undisturbed at hu
  simp only [hm, hn, hon, Bool.false_or] at hu
  exact of_decide_eq_true (all_eq_true.mp hu c hc) rfl hw

/-! ### Waiting calls -/

/-- The entry of every waiting call stands at its index. -/
def HeldInv (s : Cluster N K V) : Prop :=
  ∀ c ∈ s.calls, c.status = .waiting →
    entryAt (s.nodes c.node).fullLog c.entry.index = some c.entry

section calls

variable {s : Cluster N K V} {a : Action N K V}

/-- Where a call of the new state comes from: it was there, the action has started it, a test has
found its index committed, or its deadline has passed. -/
lemma mem_nextCalls (h : c ∈ s.nextCalls a) :
    c ∈ s.calls ∨
    (∃ n op ts r, a = .submit n op ts ∧
      (s.nodes n).propose n op.key op.value op.op ts = .ok r ∧
      c = ⟨n, (s.nodes n).proposal n op.key op.value op.op ts, .waiting⟩) ∨
    (∃ x ∈ s.calls, x.status = .waiting ∧ x.entry.index ≤ (s.nodes x.node).log.commitIndex ∧
      c = { x with status := .succeeded }) ∨
    ∃ x ∈ s.calls, c = { x with status := .timedOut } := by
  -- an updated list holds old calls and the image of one of them
  have hmod : ∀ {i : ℕ} {f : Call N K V → Call N K V}, c ∈ s.calls.modify i f →
      c ∈ s.calls ∨ ∃ x ∈ s.calls, c = f x := by
    intro i f hm
    obtain ⟨j, hj⟩ := mem_iff_getElem?.mp hm
    rw [getElem?_modify] at hj
    obtain ⟨x, hx, rfl⟩ := Option.map_eq_some_iff.mp hj
    have hx := mem_of_getElem? hx
    split_ifs with hij
    · exact .inr ⟨x, hx, rfl⟩
    · exact .inl hx
  cases a with
  | submit n op ts =>
    cases hp : (s.nodes n).propose n op.key op.value op.op ts with
    | error => simp only [Cluster.nextCalls, hp] at h; exact .inl h
    | ok r =>
      simp only [Cluster.nextCalls, hp, mem_append, mem_singleton] at h
      exact h.imp_right fun h => .inl ⟨n, op, ts, r, rfl, hp, h⟩
  | poll =>
    rcases hmod h with h | ⟨x, hx, rfl⟩
    · exact .inl h
    unfold Cluster.pollCall
    split_ifs with hw
    · exact .inr (.inr (.inl ⟨x, hx, hw.1, hw.2, rfl⟩))
    · exact .inl hx
  | expire =>
    rcases hmod h with h | ⟨x, hx, rfl⟩
    · exact .inl h
    unfold Cluster.expireCall
    split_ifs
    · exact .inr (.inr (.inr ⟨x, hx, rfl⟩))
    · exact .inl hx
  | _ => exact .inl h

/-- A call keeps its node and its entry. -/
lemma nextCalls_getElem? (h : s.calls[i]? = some c) :
    ∃ c', (s.nextCalls a)[i]? = some c' ∧ c'.node = c.node ∧ c'.entry = c.entry := by
  have hmod : ∀ {j : ℕ} {f : Call N K V → Call N K V},
      (∀ x, (f x).node = x.node ∧ (f x).entry = x.entry) →
      ∃ c', (s.calls.modify j f)[i]? = some c' ∧ c'.node = c.node ∧ c'.entry = c.entry := by
    intro j f hf
    rw [getElem?_modify, h]
    by_cases hij : j = i
    · exact ⟨f c, by simp [hij], hf c⟩
    · exact ⟨c, by simp [hij], rfl, rfl⟩
  cases a with
  | submit n op ts =>
    cases hp : (s.nodes n).propose n op.key op.value op.op ts with
    | error => exact ⟨c, by simp only [Cluster.nextCalls, hp, h], rfl, rfl⟩
    | ok =>
      simp only [Cluster.nextCalls, hp]
      rw [getElem?_append_left (List.getElem?_eq_some_iff.mp h).1]
      exact ⟨c, h, rfl, rfl⟩
  | poll =>
    refine hmod fun x => ?_
    unfold Cluster.pollCall
    split_ifs <;> exact ⟨rfl, rfl⟩
  | expire =>
    refine hmod fun x => ?_
    unfold Cluster.expireCall
    split_ifs <;> exact ⟨rfl, rfl⟩
  | _ => exact ⟨c, h, rfl, rfl⟩

lemma step_calls (s : Cluster N K V) (a : Action N K V) : (s.step a).calls = s.nextCalls a := by
  unfold Cluster.step
  split <;> rfl

lemma run_calls_getElem? (as : List (Action N K V)) (h : s.calls[i]? = some c) :
    ∃ c', (run Cluster.step s as).calls[i]? = some c' ∧ c'.node = c.node ∧ c'.entry = c.entry := by
  induction as generalizing s c with
  | nil => exact ⟨c, h, rfl, rfl⟩
  | cons a as ih =>
    obtain ⟨c', hc', hn, he⟩ := nextCalls_getElem? (a := a) h
    rw [← step_calls] at hc'
    obtain ⟨c'', hc'', hn', he'⟩ := ih hc'
    exact ⟨c'', hc'', hn'.trans hn, he'.trans he⟩

/-- A call succeeds when its index is committed. -/
lemma commitIndex_of_poll (hc : s.calls[i]? = some c) (hw : c.status = .waiting)
    (hok : ((s.step (.poll i)).calls[i]?).map Call.status = some .succeeded) :
    c.entry.index ≤ (s.nodes c.node).log.commitIndex := by
  rw [step_calls, Cluster.nextCalls, getElem?_modify, hc] at hok
  simp only [if_true, Option.map_eq_map, Option.map_some, Option.some.injEq] at hok
  by_contra hlt
  rw [Cluster.pollCall, if_neg (fun h => hlt h.2), hw] at hok
  cases hok

/-- Only a leader accepts a call. -/
lemma RaftNode.propose_ok {self : Fin N} {n : RaftNode N K V} {op : ClientOp K V} {ts : ℤ}
    {r : RaftNode N K V × ℕ × List (Message N K V)}
    (h : n.propose self op.key op.value op.op ts = .ok r) :
    n.role = .leader ∧ r.1 = n.proposed self op ts ∧ r.2.1 = n.log.nextIndex := by
  dsimp only [RaftNode.propose] at h
  split_ifs at h with hp hl
  cases h
  exact ⟨not_not.mp hl, rfl, rfl⟩

/-- A step of the acting node keeps the entry of each of its waiting calls. -/
lemma RepInv.held_step (hR : RepInv s) (hu : s.undisturbed a = true) {inp : Input N K V}
    (h : s.input a = some (c.node, inp)) (hc : c ∈ s.calls) (hw : c.status = .waiting)
    (he : entryAt (s.nodes c.node).fullLog c.entry.index = some c.entry) :
    entryAt (s.after c.node inp).fullLog c.entry.index = some c.entry := by
  have hrep := hR.rep c.node
  have hlen := (entryAt_bounds he).2
  cases s.logMove c.node inp with
  | still hlog hdisc => rw [RaftNode.fullLog, hlog, hdisc]; exact he
  | send k hnew => rw [hnew]; exact he
  | propose op ts _ _ hnew =>
    rw [hnew, (RaftNode.fullLog_proposed hrep c.node op ts).1,
      entryAt_prefix_eq (prefix_append _ _) hlen]
    exact he
  | compact _ hlt hterm hnew =>
    rw [hnew, (RaftNode.fullLog_compacted hrep hlt hterm).1]
    exact he
  | append m p pt es lc hinp hbody hon hle hpass hnew =>
    subst hinp
    have hmem := (Cluster.mem_of_input_receive h).1
    have hover := overwrites_of_undisturbed hu h hon hc hw
    have hidx := hR.indexed m hmem
    unfold Message.Indexed at hidx
    unfold RaftNode.overwrites at hover
    rw [hbody] at hidx hover
    simp only [hle, hpass, decide_true, Bool.true_and, any_eq_false, decide_eq_true_eq] at hover
    rw [hnew, (hR.accept hmem hbody).1, ← he]
    refine entryAt_eq_of_take_eq (take_spliceAll_of_agree hlen fun j e hj hsn hlt e' he' => ?_)
      le_rfl
    -- an incoming entry at an index of the log up to that of the call has the term it has there
    have hej := hidx j e hj
    have hterm : (s.nodes c.node).log.termAt e.index = e.term := by
      by_contra hne
      exact hover e (mem_of_getElem? hj) ⟨by omega, by omega, hne⟩
    rw [← hterm, hrep.termAt_eq (by omega), hej]
    exact (termAt_of_entryAt (ℓ := (s.nodes c.node).fullLog) (i := p + j + 1) he').symm
  | install m i t snap inc hinp hbody hon hle hnew =>
    subst hinp
    have hover := overwrites_of_undisturbed hu h hon hc hw
    unfold RaftNode.overwrites at hover
    rw [hbody] at hover
    simp only [hle, true_and, decide_eq_false_iff_not] at hover
    rw [hnew, RaftNode.install_follow_of_not_lt _ _ _ hover, RaftNode.follow_fullLog]
    exact he
  | count m k _ _ _ _ _ hnew =>
    obtain ⟨st, ap, ci, hadv⟩ := (s.nodes c.node).advance_acknowledged_eq c.node m.senderID k
    rw [hnew, hadv]
    exact he

/-- **An undisturbed step keeps the entries of waiting calls.** -/
theorem heldInv_step (hR : RepInv s) (hu : s.undisturbed a = true) (hH : HeldInv s) :
    HeldInv (s.step a) := by
  intro c hc hw
  rw [step_calls] at hc
  rcases mem_nextCalls hc with
    hc | ⟨n, op, ts, r, rfl, hp, rfl⟩ | ⟨x, -, -, -, rfl⟩ | ⟨x, -, rfl⟩
  · have he := hH c hc hw
    cases h : s.input a with
    | none => rw [Cluster.step_of_input_none h]; exact he
    | some x =>
      obtain ⟨n, inp⟩ := x
      rw [Cluster.step_of_input h]
      by_cases hn : c.node = n
      · subst hn
        simpa using hR.held_step hu h hc hw he
      · simpa [update_of_ne hn] using he
  · -- the call the step has started
    obtain ⟨-, hr, -⟩ := RaftNode.propose_ok hp
    have hreact : s.after n (.submit op ts) = (s.nodes n).proposed n op ts := by
      rw [← hr, Cluster.after, RaftNode.react, hp]
    have hin : s.input (.submit n op ts) = some (n, .submit op ts) := rfl
    rw [Cluster.step_of_input hin]
    show entryAt (update s.nodes n _ n).fullLog _ = _
    rw [update_self, hreact, (RaftNode.fullLog_proposed (hR.rep n) n op ts).1]
    show entryAt _ (s.nodes n).log.nextIndex = _
    rw [(hR.rep n).next_eq]
    exact entryAt_append_self _ _
  · cases hw
  · cases hw

end calls

/-- A run in which no waiting call is disturbed. -/
abbrev Undisturbed (as : List (Action N K V)) : Prop :=
  Along Cluster.step (fun s a => s.undisturbed a = true) Cluster.init as

/-- The invariants hold in every undisturbed run. -/
lemma heldInv_run {as : List (Action N K V)} (h : Undisturbed as) :
    RepInv (run Cluster.step Cluster.init as) ∧ HeldInv (run Cluster.step Cluster.init as) :=
  run_invariant (fun s => RepInv s ∧ HeldInv s)
    (fun _ a hu hI => ⟨repInv_step hI.1 a, heldInv_step hI.1 hu hI.2⟩) h
    ⟨repInv_init, nofun⟩

/-- **A successful call finds its own entry** in undisturbed runs. Node `n` accepts a proposal and
appends it at index `r.2.1` in its current term; when a later test of the wait loop turns this
call from waiting to succeeded, that index is committed at the node and holds exactly that
entry. -/
theorem acknowledged_entry_held (as bs : List (Action N K V)) (n : Fin N) (op : ClientOp K V)
    (ts : ℤ) (r : RaftNode N K V × ℕ × List (Message N K V))
    (hp : ((run Cluster.step Cluster.init as).nodes n).propose n op.key op.value op.op ts = .ok r)
    (i : ℕ) (hi : i = (run Cluster.step Cluster.init as).calls.length)
    (h : Undisturbed (as ++ .submit n op ts :: bs))
    (hw : ((run Cluster.step Cluster.init (as ++ .submit n op ts :: bs)).calls[i]?).map
      Call.status = some .waiting)
    (hok : (((run Cluster.step Cluster.init (as ++ .submit n op ts :: bs)).step
      (.poll i)).calls[i]?).map Call.status = some .succeeded) :
    r.2.1 ≤ (((run Cluster.step Cluster.init (as ++ .submit n op ts :: bs)).step
        (.poll i)).nodes n).log.commitIndex ∧
      (((run Cluster.step Cluster.init (as ++ .submit n op ts :: bs)).step (.poll i)).nodes n).Holds
        r.2.1 ⟨r.2.1, ((run Cluster.step Cluster.init as).nodes n).currentTerm, op.key, op.value,
          op.op, ts, n, .empty⟩ := by
  obtain ⟨hR, hH⟩ := heldInv_run h
  have hnew : ((run Cluster.step Cluster.init as).step (.submit n op ts)).calls[i]? =
      some ⟨n, ((run Cluster.step Cluster.init as).nodes n).proposal n op.key op.value op.op ts,
        .waiting⟩ := by
    rw [step_calls, Cluster.nextCalls, hp, hi]
    simp
  obtain ⟨c, hc, hn, he⟩ := run_calls_getElem? bs hnew
  rw [← run_cons, ← run_append] at hc
  rw [hc, Option.map_some, Option.some.injEq] at hw
  have hheld := hH c (mem_of_getElem? hc) hw
  rw [hn, he] at hheld
  have hcommit := commitIndex_of_poll hc hw hok
  rw [hn, he] at hcommit
  rw [(RaftNode.propose_ok hp).2.2]
  exact ⟨hcommit, (RaftNode.holds_iff (hR.rep n)).mpr hheld⟩

/-- The write of the first leader is acknowledged, and its entry is the one at index `1`. -/
theorem acknowledged_entry_held_first :
    (((run Cluster.step Cluster.init commitFirst).step (.poll 0)).calls[0]?).map Call.status =
      some .succeeded ∧
    (((run Cluster.step Cluster.init commitFirst).step (.poll 0)).nodes 0).Holds 1
      ⟨1, 1, 7, 70, .set, 5, 0, .empty⟩ := by
  have h := acknowledged_entry_held electFirst [.deliver 1, .deliver 2] 0 (.write 7 70) 5 _ rfl
    0 (by decide +kernel) (by decide +kernel) (by decide +kernel) (by decide +kernel)
  exact ⟨by decide +kernel, h.2⟩

/-- A run within the guarantees of the fabric. Node `0`, leader of term `1`, accepts a write that
reaches nobody. Node `1` leads term `2` and commits another write with node `2`; its heartbeat
replaces the entry of node `0` and brings the commit index. -/
def overwriteRun : List (Action 3 ℕ ℕ) :=
  [.tick 0 (.elect true), .deliver 1, .drop 0, .deliver 0, .submit 0 (.write 0 1) 0, .drop 0,
    .drop 0, .tick 1 (.elect true), .tick 1 (.elect true), .drop 0, .drop 0, .drop 0, .deliver 0,
    .deliver 0, .submit 1 (.write 0 2) 0, .drop 0, .deliver 0, .deliver 0, .tick 1 .beat,
    .deliver 0]

/-- The call on node `0` returns success, but the entry at its index is the other leader's. -/
theorem overwritten_call_succeeds :
    Along Cluster.step (fun s a => s.fifo a = true) Cluster.init (overwriteRun ++ [Action.poll 0]) ∧
    ((run Cluster.step Cluster.init overwriteRun).calls[0]?).map
      (fun c : Call 3 ℕ ℕ => (c.node, c.entry.index, c.entry.term, c.entry.value, c.status)) =
        some (0, 1, 1, 1, .waiting) ∧
    ((run Cluster.step Cluster.init (overwriteRun ++ [Action.poll 0])).calls[0]?).map Call.status =
      some .succeeded ∧
    ((run Cluster.step Cluster.init (overwriteRun ++ [Action.poll 0])).nodes 0).log.snapshotIndex =
      0 ∧
    (((run Cluster.step Cluster.init (overwriteRun ++ [Action.poll 0])).nodes 0).log.get 1).map
      (fun e : LogEntry (Fin 3) ℕ ℕ => (e.term, e.value)) = some (2, 2) := by
  decide +kernel

end Replication.Raft
