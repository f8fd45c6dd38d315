import Replication.Raft.Client

/-!
# Raft · Read: what a read of the leader returns

`Read` answers from the store of any node that believes to be leader. It neither asks a majority
whether the node still is, nor waits until a new leader has committed what its predecessors did.
-/

set_option linter.unusedSectionVars false

namespace Replication.Raft

open Storage Log Node Library
open Library.Ledger

variable {N : ℕ} {K V : Type} [DecidableEq K] [Inhabited V]

/-! ### Committed entries -/

/-- Entry `e` is committed at index `j`: some node holds it there and has committed that index. -/
def Cluster.Committed (s : Cluster N K V) (j : ℕ) (e : Entry N K V) : Prop :=
  ∃ m, j ≤ (s.nodes m).log.commitIndex ∧ (s.nodes m).Holds j e

/-- No node has committed more than `n`. -/
def Cluster.furthest (s : Cluster N K V) (n : Fin N) : Bool :=
  decide (∀ m, (s.nodes m).log.commitIndex ≤ (s.nodes n).log.commitIndex)

section committed

variable {t : Trace N K V} {a : Action N K V}

/-- What is committed stays committed. -/
lemma SafeInv.committed_step (hS : SafeInv t) (hsafe : t.safe a = true) {j : ℕ}
    {e : Entry N K V} (h : t.Committed j e) : (t.step a).Committed j e := by
  obtain ⟨m, hj, he⟩ := h
  obtain ⟨hle, hstable⟩ := (hS.lasts_step hsafe).2 m
  rw [RaftNode.holds_iff (hS.log.rep m)] at he
  refine ⟨m, hj.trans hle, ?_⟩
  rw [RaftNode.holds_iff ((safeInv_step hS hsafe).log.rep m), ← he]
  exact entryAt_eq_of_take_eq hstable hj

/-- A node that has committed an index holds the committed entry. -/
lemma SafeInv.entryAt_of_committed (hS : SafeInv t) {j : ℕ} {e : Entry N K V}
    (h : t.Committed j e) {n : Fin N} (hn : j ≤ (t.nodes n).log.commitIndex) :
    entryAt (t.nodes n).fullLog j = some e := by
  obtain ⟨m, hj, he⟩ := h
  rw [RaftNode.holds_iff (hS.log.rep m)] at he
  rw [← he]
  exact entryAt_eq_of_take_eq (((hS.commit.backed n).of_le hn).take_eq
    ((hS.commit.backed m).of_le hj) hS.log.coherent hS.ack.ledger_voted le_rfl) le_rfl

/-- The index of a successful call is committed, and its entry is there. -/
def AckedInv (s : Cluster N K V) : Prop :=
  ∀ c ∈ s.calls, c.status = .succeeded →
    c.entry.index ≤ (s.nodes c.node).log.commitIndex ∧
      entryAt (s.nodes c.node).fullLog c.entry.index = some c.entry

/-- A safe step keeps the entries of successful calls. -/
lemma ackedInv_step (hS : SafeInv t) (hsafe : t.safe a = true)
    (hH : HeldInv t.cluster) (hA : AckedInv t.cluster) : AckedInv (t.step a).cluster := by
  have keep : ∀ {n : Fin N} {i : ℕ} {e : Entry N K V},
      i ≤ (t.nodes n).log.commitIndex → entryAt (t.nodes n).fullLog i = some e →
      i ≤ ((t.step a).nodes n).log.commitIndex ∧
        entryAt ((t.step a).nodes n).fullLog i = some e := by
    intro n i e hi he
    obtain ⟨hle, hstable⟩ := (hS.lasts_step hsafe).2 n
    exact ⟨hi.trans hle, (entryAt_eq_of_take_eq hstable hi).trans he⟩
  intro c hc hs
  rw [Trace.step_cluster, step_calls] at hc
  rcases mem_nextCalls hc with hc | ⟨n, op, ts, r, -, -, rfl⟩ | ⟨x, hx, hw, hle, rfl⟩ | ⟨x, -, rfl⟩
  · obtain ⟨hi, he⟩ := hA c hc hs
    exact keep hi he
  · cases hs
  · exact keep hle (hH x hx hw)
  · cases hs

/-- Every store is recent for its applied log, and every snapshot for the entries it stands for. -/
structure RecentInv (s : Cluster N K V) : Prop where
  store : ∀ n, Recent s.Committed ((s.nodes n).fullLog.take (s.nodes n).applied)
    (s.nodes n).store.contents
  snap : ∀ m ∈ s.network, ∀ i it snap inc, m.body = .installSnap i it snap inc →
    Recent s.Committed inc (contentsOf snap)

/-- The acting node's store is recent. -/
lemma RecentInv.store_step (hT : RecentInv t.cluster) (hS : SafeInv t)
    (hsafe : t.safe a = true) {n : Fin N} {inp : Input N K V} (h : t.input a = some (n, inp)) :
    Recent (t.step a).Committed ((t.after n inp).fullLog.take
        (t.after n inp).applied) (t.after n inp).store.contents := by
  have hC := fun j e => hS.committed_step (a := a) hsafe (j := j) (e := e)
  have hS' := safeInv_step hS hsafe
  have hself := Trace.step_nodes_self h
  cases hS.storeChange h hsafe with
  | apply hle hstable hstore =>
    have hsplit : (t.after n inp).fullLog.take (t.after n inp).applied =
        (t.nodes n).fullLog.take (t.nodes n).applied ++
          ((t.after n inp).fullLog.take (t.after n inp).applied).drop (t.nodes n).applied := by
      rw [← hstable, ← min_eq_left hle, ← List.take_take, min_eq_left hle, List.take_append_drop]
    generalize ((t.after n inp).fullLog.take (t.after n inp).applied).drop (t.nodes n).applied = es
      at hstore hsplit
    rw [hstore, hsplit]
    refine Recent.applyLog ((hT.store n).mono hC fun _ _ he => he) fun i e _ he => ⟨n, ?_⟩
    rw [← hsplit] at he
    have hi : i ≤ (t.after n inp).applied :=
      (entryAt_bounds he).2.trans (List.length_take_le _ _)
    rw [entryAt_take hi] at he
    rw [RaftNode.holds_iff (hS'.log.rep n), ← hS'.commit.applied_eq n, hself]
    exact ⟨hi, he⟩
  | install m i it snap inc hinp hbody _ happ hfull hstore =>
    subst hinp
    rw [hstore, happ, hfull]
    exact Recent.of_isPrefix ((hT.snap m (Cluster.mem_of_input_receive h).1 i it snap inc
      hbody).mono hC fun _ _ he => he) (List.take_prefix _ _)

/-- **A safe step keeps stores and snapshots recent.** -/
theorem recentInv_step (hT : RecentInv t.cluster) (hS : SafeInv t)
    (hsafe : t.safe a = true) : RecentInv (t.step a).cluster := by
  have hC := fun j e => hS.committed_step (a := a) hsafe (j := j) (e := e)
  cases h : t.input a with
  | none =>
    rw [Trace.step_of_input_none h] at hC ⊢
    exact ⟨fun n => (hT.store n).mono hC fun _ _ he => he, fun m hm i it snap inc hb =>
      (hT.snap m (Cluster.mem_of_mem_remaining hm) i it snap inc hb).mono hC fun _ _ he => he⟩
  | some r =>
    obtain ⟨n, inp⟩ := r
    have hstore := hT.store_step hS hsafe h
    constructor
    case store =>
      exact fun v => Trace.forall_nodes_step h hstore
        (fun v _ => (hT.store v).mono hC fun _ _ he => he) v
    case snap =>
      intro m hm i it snap inc hbody
      rcases Trace.mem_network_step h hm with hm | hm
      · exact (hT.snap m hm i it snap inc hbody).mono hC fun _ _ he => he
      -- the boundary of a snapshot lies below the applied index of its sender
      obtain ⟨-, -, -, rfl, rfl, -⟩ := snapshot_of_mem_react hm hbody
      have hc := hS.commitStep h hsafe
      refine hstore.of_isPrefix ?_
      rw [RaftNode.discarded_eq (hS.log.repInv.rep_step h), hc.applied_eq]
      exact List.take_prefix_take_left hc.boundary_le

lemma recentInv_init : RecentInv (Trace.init : Trace N K V).cluster where
  store _ := recent_nil
  snap _ hm := absurd hm List.not_mem_nil

end committed

/-! ### Reads -/

namespace RaftNode

variable {n : RaftNode N K V} {k : K} {kv : KVEntry (Fin N) K V}

/-- A read that succeeds returns a live entry of the store. -/
lemma data_of_read_ok (h : n.read k = .ok kv) :
    n.store.data k = some kv ∧ kv.tombstone = false := by
  unfold RaftNode.read Store.get at h
  split_ifs at h
  cases hd : n.store.data k with
  | none => simp [hd] at h
  | some e =>
    cases ht : e.tombstone with
    | true => simp [hd, ht] at h
    | false =>
      simp only [hd, ht, Bool.false_eq_true, if_false, Except.ok.injEq] at h
      subst h
      exact ⟨rfl, ht⟩

/-- A read that finds nothing has met a tombstone or no entry. -/
lemma tombstone_of_read_notFound (h : n.read k = .error (.notFound k))
    (hkv : n.store.data k = some kv) : kv.tombstone = true := by
  unfold RaftNode.read Store.get at h
  split_ifs at h with hp hl
  · cases h
  · unfold redirect at h
    split at h <;> cases h
  · cases ht : kv.tombstone with
    | true => rfl
    | false => simp [hkv, ht] at h

end RaftNode

/-- A run whose deliveries are verified and in which no waiting call is disturbed. -/
abbrev SafeUndisturbed (as : List (Action N K V)) : Prop :=
  Along Cluster.step (fun s a => s.safe a = true ∧ s.undisturbed a = true) Cluster.init as

/-- The invariants hold in every safe and undisturbed run. -/
lemma readInv_run {as : List (Action N K V)} (h : SafeUndisturbed as) :
    SafeInv (run Trace.step Trace.init as) ∧
      AckedInv (run Trace.step Trace.init as).cluster ∧
      RecentInv (run Trace.step Trace.init as).cluster := by
  obtain ⟨hS, -, hA, hT⟩ := run_invariant (fun t => SafeInv t ∧ HeldInv t.cluster ∧
      AckedInv t.cluster ∧ RecentInv t.cluster)
    (fun t a hc hI => by
      obtain ⟨hS, hH, hA, hT⟩ := hI
      refine ⟨safeInv_step hS hc.1, ?_, ackedInv_step hS hc.1 hH hA, recentInv_step hT hS hc.1⟩
      rw [Trace.step_cluster]
      exact heldInv_step hS.log.repInv hc.2 hH)
    (Trace.along_cluster (t := Trace.init) h)
    ⟨safeInv_init, nofun, nofun, recentInv_init⟩
  exact ⟨hS, hA, hT⟩

/-- The node that has committed most has applied every acknowledged entry. -/
lemma AckedInv.committed {t : Trace N K V} (hA : AckedInv t.cluster) (hS : SafeInv t)
    {c : Call N K V} (hc : c ∈ t.calls) (hs : c.status = .succeeded) {n : Fin N}
    (hfar : t.furthest n = true) :
    t.Committed c.entry.index c.entry ∧
      entryAt ((t.nodes n).fullLog.take (t.nodes n).applied) c.entry.index = some c.entry := by
  obtain ⟨hi, he⟩ := hA c hc hs
  have hcom : t.Committed c.entry.index c.entry :=
    ⟨c.node, hi, (RaftNode.holds_iff (hS.log.rep c.node)).mpr he⟩
  have hle := hi.trans (of_decide_eq_true hfar c.node)
  refine ⟨hcom, ?_⟩
  rw [hS.commit.applied_eq n, entryAt_take hle]
  exact hS.entryAt_of_committed hcom hle

/-- A run within the guarantees of the fabric. Node `0` leads term `1` and hears nothing more.
Node `1` leads term `2`, commits a write of key `7` with node `2` and acknowledges it. -/
def staleLeaderRun : List (Action 3 ℕ ℕ) :=
  [.tick 0 (.elect true), .deliver 1, .drop 0, .deliver 0, .tick 1 (.elect true),
    .tick 1 (.elect true), .drop 0, .drop 0, .drop 0, .deliver 0, .deliver 0,
    .submit 1 (.write 7 70) 0, .drop 0, .deliver 0, .deliver 0, .poll 0]

end Replication.Raft
