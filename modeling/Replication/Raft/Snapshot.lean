import Mathlib.Data.Fintype.EquivFin
import Mathlib.Data.Fintype.Lattice
import Replication.Raft.Commit

/-!
# Raft · Snapshot: what a store and a snapshot hold

`sendSnapshot` reads the boundary index from the log and the contents from the store. The log's
boundary is where the last compaction was, the store is at the applied index, and nothing makes
the two agree when the snapshot is sent.

* `StoreChange` — what a safe step does to the store of a node: apply the newly committed entries,
  or install a snapshot and move the applied index to its boundary.
* `Cluster.current` — the condition: snapshots are sent only at the moment when nothing has been
  applied since the compaction.
* Faithful snapshots — then every snapshot holds the state of its boundary index, and a follower
  that installs it holds that state. In `staleRun` a snapshot for index `31` carries the write of
  index `32`.
-/

set_option linter.unusedSectionVars false

namespace Replication.Raft

open Storage Log Node Library List
open Library.Ledger

variable {N : ℕ} {K V : Type} [DecidableEq K] [Inhabited V] {i it : ℕ} {inc : List (Entry N K V)}
  {old : RaftNode N K V} {snap : K → Option (KVEntry (Fin N) K V)} {t : Trace N K V}
  {a : Action N K V} {n : Fin N} {inp : Input N K V}

/-! ### What a step does to a store -/

/-- What a safe step does to the store of a node. -/
inductive StoreChange (old : RaftNode N K V) (inp : Input N K V) (new : RaftNode N K V) : Prop
  /-- The entries between the old and the new applied index are applied; the log below stays. -/
  | apply (hle : old.applied ≤ new.applied)
      (hstable : new.fullLog.take old.applied = old.fullLog.take old.applied)
      (hstore : new.store =
        old.store.applyLog ((new.fullLog.take new.applied).drop old.applied))
  | install (m : Message N K V) (i it : ℕ) (snap : K → Option (KVEntry (Fin N) K V))
      (inc : List (Entry N K V)) (hinp : inp = .receive m)
      (hbody : m.body = .installSnap i it snap inc) (hle : old.applied ≤ i)
      (happ : new.applied = i) (hfull : new.fullLog = inc)
      (hstore : new.store = old.store.restoreSnapshot snap)

section step

open RaftNode

/-- A step that applies nothing. -/
lemma storeChange_of_eq {new : RaftNode N K V} (happ : new.applied = old.applied)
    (hstable : new.fullLog.take old.applied = old.fullLog.take old.applied)
    (hstore : new.store = old.store) : StoreChange old inp new := by
  refine .apply happ.ge hstable ?_
  rw [hstore, happ, drop_eq_nil_of_le (length_take_le _ _)]
  rfl

/-- A step that commits applies what it commits. -/
lemma storeChange_of_commit {new : RaftNode N K V} {c : ℕ} (happ : new.applied = max old.applied c)
    (hstable : new.fullLog.take old.applied = old.fullLog.take old.applied) (hstore : new.store =
      old.store.applyLog ((new.fullLog.drop old.applied).take (c - old.applied))) :
    StoreChange old inp new := by
  refine .apply (by omega) hstable ?_
  rw [hstore, drop_take, happ]
  congr 2
  omega

/-- A snapshot above the boundary covers what the node has applied, and moves the applied index
to its own. -/
lemma install_of_commitStep {L : Ledger (Fin N) (Entry N K V)} {sender : Fin N} {term : ℕ}
    (hc : CommitStep L old ((old.follow sender term).install i it snap inc))
    (hs : old.log.snapshotIndex < i) (happ : old.applied = old.log.commitIndex)
    (hlen : ((old.follow sender term).install i it snap inc).fullLog.length = i) :
    old.applied ≤ i ∧ ((old.follow sender term).install i it snap inc).applied = i ∧
      ((old.follow sender term).install i it snap inc).store = old.store.restoreSnapshot snap := by
  -- the committed part ends inside the snapshot
  have hle : old.applied ≤ i := by
    have h₁ := hc.mono
    have h₂ := hc.backed.le_length
    omega
  refine ⟨hle, ?_⟩
  unfold RaftNode.install
  simp only [follow_log, follow_applied, follow_store, if_pos hs]
  exact ⟨by split_ifs <;> omega, trivial⟩

/-- Every safe step changes the store of the acting node in one of the two ways. -/
lemma SafeInv.storeChange (hS : SafeInv t) (h : t.input a = some (n, inp))
    (hsafe : t.safe a = true) : StoreChange (t.nodes n) inp (t.after n inp) := by
  have hrep := hS.log.rep n
  have hsn := hS.commit.boundary_le n
  have happ := hS.commit.applied_eq n
  have hc := hS.commitStep h hsafe
  have hstable := hc.stable
  rw [← happ] at hstable
  cases t.logMove n inp with
  | still hlog hdisc happ' hstore => exact storeChange_of_eq happ' hstable hstore
  | send k hnew => exact storeChange_of_eq (by rw [hnew]) hstable (by rw [hnew])
  | propose _ _ _ _ hnew | compact _ _ _ hnew =>
    exact storeChange_of_eq (by rw [hnew]; rfl) hstable (by rw [hnew]; rfl)
  | append m p pt es lc hinp hbody hon hle hpass hnew =>
    subst hinp
    obtain ⟨-, hrep'⟩ := hS.log.repInv.accept (n := n) (Cluster.mem_of_input_receive h).1 hbody
    have hspec := accept_spec hrep' (by simpa using happ) (by simpa using hsn)
    rw [hnew] at hstable ⊢
    generalize ((t.nodes n).follow m.senderID m.term).accept p es lc = X at *
    refine storeChange_of_commit (c := min lc X.fullLog.length) ?_ hstable ?_
    · simpa using congrArg RaftNode.applied hspec
    · simpa using congrArg RaftNode.store hspec
  | install m i it snap inc hinp hbody hon hle hnew =>
    subst hinp
    have hmem := (Cluster.mem_of_input_receive h).1
    obtain ⟨-, hi, -, hfull⟩ := hS.log.install_takes (n := n) hmem hbody
    by_cases hs : (t.nodes n).log.snapshotIndex < i
    · rw [hnew] at hc
      obtain ⟨hle', happ', hstore⟩ := install_of_commitStep hc hs happ
        (by rw [hfull, if_pos hs, length_take_of_le hi])
      rw [hnew]
      refine .install m i it snap inc rfl hbody hle' happ' ?_ hstore
      rw [(hS.log.repInv.install hmem hbody).1, if_pos hs]
    · rw [install_follow_of_not_lt _ _ _ hs] at hnew
      exact storeChange_of_eq (by rw [hnew, follow_applied]) hstable (by rw [hnew, follow_store])
  | count m k _ _ _ _ hl hnew =>
    rcases advanceCommitLocked_cases n ((t.nodes n).acknowledged m.senderID k) with
      hadv | ⟨idx, -, hlast, -, -, hadv⟩
    · exact storeChange_of_eq (by rw [hnew, hadv]; rfl) hstable (by rw [hnew, hadv]; rfl)
    · have hspec := commitTo_spec (n := (t.nodes n).acknowledged m.senderID k) hrep
        happ hsn (hrep.lastIndex_eq ▸ hlast)
      rw [hnew, hadv, hspec] at hstable ⊢
      exact storeChange_of_commit (c := idx) rfl hstable rfl

end step

/-! ### The condition -/

/-- Whatever snapshot the node would send now is of the index it has applied. -/
def RaftNode.current (self : Fin N) (n : RaftNode N K V) : Bool :=
  (peers self).all fun p => decide (n.role = .leader → n.lags p = true →
    n.applied = n.log.snapshotIndex)

/-- A step that sends snapshots does so right after the compaction. -/
def Cluster.current (s : Cluster N K V) : Action N K V → Bool
  | .tick n .beat => (s.nodes n).current n
  | .tick n .spawned => (s.nodes n).current n
  | .submit n _ _ => (s.nodes n).current n
  | _ => true

/-- Every store has the state of its applied index, and every snapshot in flight that of the
entries it stands for. -/
structure StoreInv (s : Cluster N K V) : Prop where
  state : ∀ n, (s.nodes n).store.contents =
    stateOf ((s.nodes n).fullLog.take (s.nodes n).applied)
  snap : ∀ m ∈ s.network, ∀ i it snap inc, m.body = .installSnap i it snap inc →
    contentsOf snap = stateOf inc

section current

open RaftNode

/-- The acting node's store has the state of its applied index. -/
lemma StoreInv.state_step (hT : StoreInv t.cluster) (hS : SafeInv t)
    (h : t.input a = some (n, inp)) (hsafe : t.safe a = true) :
    (t.after n inp).store.contents =
      stateOf ((t.after n inp).fullLog.take (t.after n inp).applied) := by
  cases hS.storeChange h hsafe with
  | apply hle hstable hstore =>
    rw [hstore, contents_applyLog_stateOf (hT.state n), ← hstable, ← min_eq_left hle,
      ← take_take, min_eq_left hle, take_append_drop]
  | install m i it snap inc hinp hbody _ happ hfull hstore =>
    subst hinp
    have hmem := (Cluster.mem_of_input_receive h).1
    have hf := hS.log.faithful m hmem
    unfold Message.Faithful at hf
    rw [hbody] at hf
    obtain ⟨-, -, hinc, -⟩ := hf
    rw [hstore, happ, hfull, take_of_length_le (by rw [hinc]; exact length_take_le _ _)]
    exact hT.snap m hmem i it snap inc hbody

/-- A snapshot sent by a step comes from a leader, for a peer that lags, and carries the store and
the discarded entries; the step changes nothing that `current` reads. -/
lemma snapshot_of_mem_react {m : Message N K V} (hm : m ∈ (old.react n inp).2)
    (hbody : m.body = .installSnap i it snap inc) :
    (old.react n inp).1.role = .leader ∧
      (∃ p, p ≠ n ∧ (old.react n inp).1.lags p = true) ∧
      i = (old.react n inp).1.log.snapshotIndex ∧ snap = (old.react n inp).1.store.data ∧
      inc = (old.react n inp).1.discarded ∧ (old.react n inp).1.current n = old.current n ∧
      (inp = .tick .beat ∨ inp = .tick .spawned ∨ ∃ op ts, inp = .submit op ts) := by
  rcases (old.react_logMove n inp).sent_cases hm with hplain | ⟨-, -, _, rfl⟩ | ⟨p, hp, hmem, hwhy⟩
  · simp [Message.isPlain, hbody] at hplain
  · cases hbody
  obtain ⟨hl, ⟨hlag, rfl⟩ | ⟨prev, -, rfl⟩⟩ := mem_sendAppend n _ hmem
  · cases hbody
    refine ⟨hl, ⟨p, hp, hlag⟩, rfl, rfl, rfl, ?_⟩
    rcases hwhy with ⟨k, hnew, hinp⟩ | ⟨op, ts, hnew, hinp⟩
    · exact ⟨by rw [hnew]; rfl, hinp.imp_right .inl⟩
    · exact ⟨by rw [hnew]; rfl, .inr (.inr ⟨op, ts, hinp⟩)⟩
  · cases hbody

/-- A snapshot that a current step sends is of the applied index. -/
lemma snapshot_sent (h : t.input a = some (n, inp)) (hcur : t.current a = true)
    {m : Message N K V} (hm : m ∈ t.sent n inp) (hbody : m.body = .installSnap i it snap inc) :
    (t.after n inp).role = .leader ∧ i = (t.after n inp).log.snapshotIndex ∧
      (t.after n inp).applied = i ∧ snap = (t.after n inp).store.data ∧
      inc = (t.after n inp).discarded := by
  obtain ⟨hl, ⟨p, hp, hlag⟩, hi, hsnap, hinc, heq, hinp⟩ := snapshot_of_mem_react hm hbody
  have hold : (t.nodes n).current n = true := by
    rcases hinp with rfl | rfl | ⟨op, ts, rfl⟩
    · rw [Cluster.eq_of_input_tick h] at hcur
      exact hcur
    · rw [Cluster.eq_of_input_tick h] at hcur
      exact hcur
    · rw [Cluster.eq_of_input_submit h] at hcur
      exact hcur
  rw [← heq] at hold
  have happ := of_decide_eq_true (all_eq_true.mp hold p (mem_peers.mpr hp)) hl hlag
  exact ⟨hl, hi, happ.trans hi.symm, hsnap, hinc⟩

/-- A safe and current step keeps stores and snapshots. -/
lemma storeInv_step (hT : StoreInv t.cluster) (hS : SafeInv t)
    (hsafe : t.safe a = true) (hcur : t.current a = true) : StoreInv (t.step a).cluster := by
  cases h : t.input a with
  | none =>
    rw [Trace.step_of_input_none h]
    exact ⟨hT.state, fun m hm => hT.snap m (Cluster.mem_of_mem_remaining hm)⟩
  | some r =>
    obtain ⟨n, inp⟩ := r
    have hstate := hT.state_step hS h hsafe
    have hrep := hS.log.repInv.rep_step h
    constructor
    case state =>
      exact fun v => Trace.forall_nodes_step h hstate (fun v _ => hT.state v) v
    case snap =>
      intro m hm i it snap inc hbody
      rcases Trace.mem_network_step h hm with hm | hm
      · exact hT.snap m hm i it snap inc hbody
      · obtain ⟨-, hi, happ, rfl, rfl⟩ := snapshot_sent h hcur hm hbody
        rw [discarded_eq hrep, ← hi, ← happ]
        exact hstate

end current

/-- A run whose deliveries are verified and whose snapshots are current. -/
abbrev SafeCurrent (as : List (Action N K V)) : Prop :=
  Along Cluster.step (fun s a => s.safe a = true ∧ s.current a = true) Cluster.init as

/-- The invariants hold in every safe and current run. -/
lemma storeInv_run {as : List (Action N K V)} (h : SafeCurrent as) :
    SafeInv (run Trace.step Trace.init as) ∧ StoreInv (run Trace.step Trace.init as).cluster :=
  run_invariant (fun t => SafeInv t ∧ StoreInv t.cluster)
    (fun _ _ hc hI => ⟨safeInv_step hI.1 hc.1, storeInv_step hI.2 hI.1 hc.1 hc.2⟩)
    (Trace.along_cluster (t := Trace.init) h)
    ⟨safeInv_init, fun _ => rfl, nofun⟩

/-- Node `0`, leader of term `1`, commits `31` writes with node `1` and compacts its log. -/
def compactRun : List (Action 3 ℕ ℕ) :=
  electFirst ++ [Action.drop 0] ++
    (List.replicate 31 [Action.submit 0 (.write 0 0) 0, .drop 0, .drop 0]).flatten ++
    [Action.tick 0 .beat, .drop 1, .deliver 0, .deliver 0, .tick 0 .compact]

/-- The boundary of a snapshot message and the value it has for a key. -/
def Message.snapshotValue (k : K) (m : Message N K V) : Option (ℕ × Option V) :=
  match m.body with
  | .installSnap i _ snap _ => some (i, (snap k).map KVEntry.value)
  | _ => none

/-- After the compaction one more write is committed, and then the heartbeat sends a snapshot. -/
def staleRun : List (Action 3 ℕ ℕ) :=
  compactRun ++ [Action.submit 0 (.write 0 1) 0, .drop 1, .deliver 0, .deliver 0, .tick 0 .beat]

end Replication.Raft
