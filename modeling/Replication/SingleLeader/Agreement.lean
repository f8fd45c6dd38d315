import Replication.SingleLeader.Cluster

/-!
# Single leader · Agreement: the leader's store and its log

A call appends to the log in one section and writes the store in a later one. Two calls on the same
key may do so in opposite orders, and then the store of the leader keeps the older value for good,
while every follower applies the log in its order.

* Agreement — when all calls have finished, the store shows the state of the log; so does every
  follower that has caught up. In `reversedRun` two concurrent writes make it fail.
-/

set_option linter.unusedSectionVars false

namespace Replication.SingleLeader

open Storage Log Node Library List

variable {I K V : Type} [DecidableEq I] [DecidableEq K] [Inhabited V] {c c' : Call I K V}
  {e : LogEntry I K V} {i : ℕ}

/-- No call is still to store the entry at index `i`. -/
def Cluster.Stored (s : Cluster I K V) (i : ℕ) : Prop :=
  ∀ c ∈ s.calls, ∀ e, c.pending = some e → e.index ≠ i

/-- A step that stores an entry leaves no later entry of its key behind: those in the log are still
to be stored. -/
def Cluster.ordered (s : Cluster I K V) : Action I K V → Bool
  | .advance i _ =>
    match (s.calls[i]?).map Call.phase with
    | some (.store e) => s.leader.log.entries.all fun e' =>
      decide (e.index < e'.index → e'.key = e.key →
        (s.calls.any fun c => c.pending.elim false fun x => x.index = e'.index) = true)
    | _ => true
  | _ => true

/-- A stored entry is what the store shows for its key. -/
lemma view_storeEntry (s : Store I K V) (e : LogEntry I K V) :
    (storeEntry s e).view = Function.update s.view e.key (some e.toKV.visible) := by
  unfold storeEntry
  cases hop : e.op with
  | set => exact view_set s e.toKV
  | delete =>
    dsimp only
    rw [view_delete]
    simp [KVEntry.visible, LogEntry.toKV, hop]

/-- The store shows the last stored write of every key. -/
def AgreeInv (s : Cluster I K V) : Prop :=
  LastWrite LogEntry.key (fun e => e.toKV.visible)
    (fun i e => entryAt s.leader.log.entries i = some e)
    (fun i e => entryAt s.leader.log.entries i = some e ∧ s.Stored i) s.leader.store.view

section step

variable {s s' : Cluster I K V}

/-- Replacing one element leaves the others in the list. -/
lemma mem_set_of_ne {α : Type*} {l : List α} {c c' x : α} (hc : l[i]? = some c) (hx : x ∈ l)
    (hne : x ≠ c) : x ∈ l.set i c' := by
  obtain ⟨j, hj⟩ := mem_iff_getElem?.mp hx
  have hij : i ≠ j := by
    rintro rfl
    rw [hc, Option.some.injEq] at hj
    exact hne hj.symm
  refine mem_of_getElem? (i := j) ?_
  rw [getElem?_set_ne hij]
  exact hj

/-- Steps that leave log and store alone, and leave no less to be stored. -/
lemma AgreeInv.of_eq (h : AgreeInv s) (hlog : s'.leader.log.entries = s.leader.log.entries)
    (hstore : s'.leader.store = s.leader.store) (hst : ∀ i, s'.Stored i → s.Stored i) :
    AgreeInv s' := by
  unfold AgreeInv at h ⊢
  rw [hlog, hstore]
  exact h.mono (fun _ _ he => he) fun i e he => ⟨he.1, hst i he.2⟩

/-- A call that keeps what it has to store at `j` leaves index `j` as it was. -/
lemma stored_of_set (hc : s.calls[i]? = some c) (hcalls : s'.calls = s.calls.set i c') {j : ℕ}
    (hpend : ∀ e, c.pending = some e → e.index = j → c'.pending = some e) (h : s'.Stored j) :
    s.Stored j := by
  intro x hx e he hj
  have hlt : i < s.calls.length := (List.getElem?_eq_some_iff.mp hc).1
  by_cases hxc : x.pending = c.pending
  · refine h c' ?_ e (hpend e (hxc ▸ he) hj) hj
    rw [hcalls]
    exact mem_set hlt c'
  · refine h x ?_ e he hj
    rw [hcalls]
    exact mem_set_of_ne hc hx fun hx => hxc (congrArg Call.pending hx)

/-- An appended entry is still to be stored, so the store agrees as before. -/
lemma AgreeInv.append (h : AgreeInv s) (hI : ClusterInv s) (hc : s.calls[i]? = some c)
    (hcalls : s'.calls = s.calls.set i c') (he : e.index = s.leader.log.nextIndex)
    (hpend : c.pending = none) (hlog : s'.leader.log.entries = s.leader.log.entries ++ [e])
    (hstore : s'.leader.store = s.leader.store) (hpend' : c'.pending = some e) : AgreeInv s' := by
  unfold AgreeInv at h ⊢
  rw [hlog, hstore]
  refine h.mono (fun j e' he' => ?_) fun j e' hj => ?_
  · exact (entryAt_prefix_eq (prefix_append _ _) (entryAt_bounds he').2).trans he'
  · obtain ⟨hj, hst⟩ := hj
    have hle : j ≤ s.leader.log.entries.length := by
      by_contra hlt
      have hlen := (entryAt_bounds hj).2
      rw [length_append, length_singleton] at hlen
      refine hst c' ?_ e hpend' ?_
      · rw [hcalls]
        exact mem_set (List.getElem?_eq_some_iff.mp hc).1 c'
      · rw [he, hI.rep.next_eq]
        omega
    rw [entryAt_prefix_eq (prefix_append _ _) hle] at hj
    refine ⟨hj, stored_of_set hc hcalls (fun x hx => ?_) hst⟩
    simp [hpend] at hx

/-- In an ordered step, later entries of the key are still to be stored. -/
lemma not_stored_of_ordered (hI : ClusterInv s) {ts : ℤ} (hc : s.calls[i]? = some c)
    (hphase : c.phase = .store e) (hord : s.ordered (.advance i ts) = true) {j : ℕ}
    {e' : LogEntry I K V} (hj : entryAt s.leader.log.entries j = some e') (hkey : e'.key = e.key)
    (hlt : e.index < j) : ¬ s.Stored j := by
  intro hst
  have hidx := hI.rep.index_eq j e' hj
  unfold Cluster.ordered at hord
  simp only [hc, Option.map_some, hphase, all_eq_true, decide_eq_true_eq] at hord
  have hin : e' ∈ s.leader.log.entries := by
    obtain ⟨j', rfl⟩ : ∃ j', j = j' + 1 := ⟨j - 1, by omega⟩
    exact mem_of_getElem? hj
  obtain ⟨x, hx, hxe⟩ := any_eq_true.mp (hord e' hin (by omega) hkey)
  cases hp : x.pending with
  | none => simp [hp] at hxe
  | some e'' =>
    have hi : e''.index = e'.index := by simpa [hp] using hxe
    exact hst x hx e'' hp (hi.trans hidx)

section

variable (h : AgreeInv s) (hI : ClusterInv s)

include h hI

/-- Storing an entry in order keeps the agreement. -/
lemma AgreeInv.store {ts : ℤ} (hc : s.calls[i]? = some c) (hcalls : s'.calls = s.calls.set i c')
    (hphase : c.phase = .store e) (hord : s.ordered (.advance i ts) = true)
    (hlog : s'.leader.log.entries = s.leader.log.entries)
    (hstore : s'.leader.store = storeEntry s.leader.store e) : AgreeInv s' := by
  have hpend : c.pending = some e := by rw [Call.pending, hphase]
  have hat : entryAt s.leader.log.entries e.index = some e := by
    have hin := hI.pending c (mem_of_getElem? hc) e hpend
    obtain ⟨j, hj⟩ := mem_iff_getElem?.mp hin
    exact hI.rep.index_eq (j + 1) e hj ▸ hj
  have hold : ∀ {j}, j ≠ e.index → s'.Stored j → s.Stored j := by
    intro j hj
    refine stored_of_set hc hcalls fun x hx hxj => ?_
    rw [hpend, Option.some.injEq] at hx
    exact absurd (hx ▸ hxj).symm hj
  unfold AgreeInv at h ⊢
  rw [hlog, hstore, view_storeEntry]
  refine h.write hat (fun j e' hj => ?_) fun j e' hj hkey => ?_
  · by_cases hje : j = e.index
    · subst hje
      rw [hat, Option.some.injEq] at hj
      exact .inr hj.1.symm
    · exact .inl ⟨hj.1, hold hje hj.2⟩
  · by_contra hlt
    exact not_stored_of_ordered hI hc hphase hord hj.1 hkey (by omega) (hold (by omega) hj.2)

/-- An ordered section of a call keeps the agreement. -/
lemma AgreeInv.advance (hc : s.calls[i]? = some c) (ts : ℤ)
    (hord : s.ordered (.advance i ts) = true) : AgreeInv (s.advance i c ts) := by
  have hcalls : (s.advance i c ts).calls = s.calls.set i (s.leader.advance c ts).2.1 := rfl
  have hleader : (s.advance i c ts).leader = (s.leader.advance c ts).1 := rfl
  cases advance_logStep s.leader c ts with
  | append e _ _ _ _ he hpend hlog hstore hpend' =>
    refine h.append hI hc hcalls he hpend ?_ (by rw [hleader, hstore]) hpend'
    rw [hleader, hlog, (hI.append_entries he).1]
  | commit k hlog hstore hpend' =>
    refine h.of_eq ?_ (by rw [hleader, hstore]) fun j =>
      stored_of_set hc hcalls fun x hx _ => hpend' ▸ hx
    rw [hleader, hlog, setCommitIndex_entries]
  | store e hphase hlog hstore =>
    exact h.store hI hc hcalls hphase hord (by rw [hleader, hlog]) (by rw [hleader, hstore])
  | other hlog hstore hpend =>
    refine h.of_eq (by rw [hleader, hlog]) (by rw [hleader, hstore]) fun j =>
      stored_of_set hc hcalls fun x hx => ?_
    simp [hpend] at hx

/-- **An ordered step keeps the store in agreement.** -/
theorem agreeInv_step {a : Action I K V} (hord : s.ordered a = true) : AgreeInv (s.step a) := by
  have hmove := s.move_step a
  generalize s.step a = s' at hmove ⊢
  cases hmove with
  | idle | drop | react | config => exact h
  | invoke call c hc => exact h.of_eq rfl rfl fun i hst x hx => hst x (mem_append_left _ hx)
  | advance i ts c ha hc => exact h.advance hI hc ts (ha ▸ hord)
  | expire i c hc =>
    refine h.of_eq rfl rfl fun j => stored_of_set hc rfl fun e he _ => ?_
    rw [Call.expire_pending]
    exact he
  | deliver i msg =>
    dsimp only [Cluster.receive]
    split_ifs
    · obtain ⟨⟨chs, hl⟩, -⟩ := handleMessage_frame s.leader msg
      exact h.of_eq (by rw [hl]) (by rw [hl]) fun i hst => hst
    · exact h

end

end step

/-- A call that has returned has nothing to store. -/
lemma Call.pending_of_result (h : c.result ≠ none) : c.pending = none := by
  unfold Call.result at h
  unfold Call.pending
  split at h
  · simp_all
  · exact absurd rfl h

/-- **The leader's store agrees with its log** in ordered runs. When all calls have finished, the
store shows, key by key, what applying the log in index order to the empty store shows; and a
follower that has applied the whole log shows the same. -/
theorem leader_store_agrees (leaderID : I) (mode : ReplicationMode) (peers : List I)
    (as : List (Action I K V))
    (h : Along Cluster.step (fun s a => s.ordered a = true) (Cluster.init leaderID mode peers) as)
    (hdone : ∀ c ∈ (run Cluster.step (Cluster.init leaderID mode peers) as).calls,
      c.result ≠ none) (k : K) :
    (run Cluster.step (Cluster.init leaderID mode peers) as).leader.store.view k =
      (Store.new.applyLog
        (run Cluster.step (Cluster.init leaderID mode peers) as).leader.log.entries).view k ∧
    ∀ f, ((run Cluster.step (Cluster.init leaderID mode peers) as).followers f).applied =
        (run Cluster.step (Cluster.init leaderID mode peers) as).leader.log.lastIndex →
      ((run Cluster.step (Cluster.init leaderID mode peers) as).followers f).store.view k =
        (run Cluster.step (Cluster.init leaderID mode peers) as).leader.store.view k := by
  obtain ⟨hI, hA⟩ := run_invariant (fun s => ClusterInv s ∧ AgreeInv s)
    (fun s a hord hs => ⟨clusterInv_step hs.1 a, agreeInv_step hs.2 hs.1 hord⟩) h
    ⟨clusterInv_init leaderID mode peers, lastWrite_empty fun i e he => by
      have := he.1
      rw [show (Cluster.init leaderID mode peers : Cluster I K V).leader.log.entries = [] from rfl,
        entryAt_nil] at this
      cases this⟩
  generalize run Cluster.step (Cluster.init leaderID mode peers) as = s at *
  have hall : ∀ i, s.Stored i := by
    intro i c hc e he
    simp [Call.pending_of_result (hdone c hc)] at he
  have hview : s.leader.store.view =
      fun k => (stateOf s.leader.log.entries k).map KVEntry.visible :=
    LastWrite.unique (hA.mono (fun _ _ he => he) fun i e he => ⟨he, hall i⟩)
      ((recent_stateOf s.leader.log.entries).map KVEntry.visible)
      fun i e e' he he' => Option.some.inj (he.symm.trans he')
  refine ⟨?_, fun f hf => ?_⟩
  · rw [hview, Store.view_eq_contents]
    rfl
  · have hstore := (hI.follows f).store
    rw [hf, hI.rep.lastIndex_eq, take_length] at hstore
    rw [hview, Store.view_eq_contents, hstore]

/-- Two writes of key `7` on leader `0` with follower `1`, from their calls to the delivery of
their messages. The first one appends first; `stores` are the sections in between. -/
def twoWrites (stores : List (Action ℕ ℕ ℕ)) : List (Action ℕ ℕ ℕ) :=
  [Action.invoke (.write 7 10), .invoke (.write 7 20), .advance 0 0, .advance 0 0, .advance 1 0,
    .advance 1 0] ++ stores ++
  [Action.advance 0 0, .advance 0 0, .advance 0 0, .advance 0 0, .advance 1 0, .advance 1 0,
    .advance 1 0, .advance 1 0, .deliver 0, .deliver 0]

/-- Two writes of key `7`, one after the other. -/
def inOrderRun : List (Action ℕ ℕ ℕ) :=
  twoWrites [.advance 0 0, .advance 0 0, .advance 1 0, .advance 1 0]

/-- Both replicas show the second write. -/
theorem leader_store_agrees_inOrder :
    ((run Cluster.step (Cluster.init 0 .async [1]) inOrderRun).leader.store.view 7).map Prod.fst =
      some (some 20) ∧
    ((run Cluster.step (Cluster.init 0 .async [1]) inOrderRun).followers 1).store.view 7 =
      (run Cluster.step (Cluster.init 0 .async [1]) inOrderRun).leader.store.view 7 := by
  have h := leader_store_agrees 0 .async [1] inOrderRun (by decide +kernel) (by decide +kernel) 7
  exact ⟨by decide +kernel, h.2 1 (by decide +kernel)⟩

/-- Two writes of key `7` that append in one order and store in the other. -/
def reversedRun : List (Action ℕ ℕ ℕ) :=
  twoWrites [.advance 1 0, .advance 1 0, .advance 0 0, .advance 0 0]

/-- The leader keeps the first write, while its log and the follower that has caught up have the
second. -/
theorem reversed_stores_diverge :
    Along Cluster.step (fun s a => s.fifo a = true) (Cluster.init 0 .async [1]) reversedRun ∧
    (∀ c ∈ (run Cluster.step (Cluster.init 0 .async [1]) reversedRun).calls, c.result ≠ none) ∧
    ((run Cluster.step (Cluster.init 0 .async [1]) reversedRun).leader.store.view 7).map Prod.fst =
      some (some 10) ∧
    ((Store.new.applyLog
      (run Cluster.step (Cluster.init 0 .async [1]) reversedRun).leader.log.entries).view 7).map
        Prod.fst = some (some 20) ∧
    (((run Cluster.step (Cluster.init 0 .async [1]) reversedRun).followers 1).store.view 7).map
      Prod.fst = some (some 20) := by
  decide +kernel

end Replication.SingleLeader
