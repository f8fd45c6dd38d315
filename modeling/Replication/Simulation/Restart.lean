import Replication.Simulation.Quorums

/-!
# Simulation · Restart: saved clusters

`persistCluster` saves a cluster's configuration, node ids and leader; `Restore` creates it again
from the configuration alone, which stands for the nodes `1 .. NodeCount`.

* `Cluster.record`, `restoreRecord` — saving and restoring. JSON and the database are taken to be
  faithful; the event history and the time of creation are left out.
-/

set_option linter.unusedSectionVars false

namespace Replication.Simulation

open Storage Node Leaderless Library List
open HashRing (Hashing)

variable {V : Type} [Inhabited V] [DecidableEq V] {c c' : Cluster V} {H : Hashing String String}

/-! ### Saving and restoring -/

/-- Source: `db.go` `ClusterRecord`. -/
structure ClusterRecord where
  id : String
  config : ClusterConfig
  nodeIDs : List String
  leaderID : String
  deriving DecidableEq, Repr

/-- Source: `orchestrator.go` `persistCluster`. -/
def Cluster.record (c : Cluster V) : ClusterRecord where
  id := c.id
  config := c.config
  nodeIDs := c.nodeIDs
  leaderID := c.leaderID

/-- One round of the loop over the records. Source: `orchestrator.go` `Restore`. -/
def restoreRecord (H : Hashing String String) (r : ClusterRecord) : Except String (Cluster V) :=
  createClusterCore H r.id r.config

/-- The quorum that a node works with. -/
def Cluster.quorumAt (c : Cluster V) (id : String) : Option QuorumConfig :=
  (c.replica id).map fun ll => ll.qConfig

/-- A restart goes through, and the restored cluster has the same nodes, the same leader and, if it
is leaderless, the same quorum at every node. -/
def Cluster.Transparent (H : Hashing String String) (c : Cluster V) : Prop :=
  ∃ c' : Cluster V, restoreRecord H c.record = .ok c' ∧
    (∀ id, id ∈ c'.nodeIDs ↔ id ∈ c.nodeIDs) ∧ c'.leaderID = c.leaderID ∧
    (c.config.strategy = .leaderless → ∀ id, c'.quorumAt id = c.quorumAt id)

/-! ### Restored clusters -/

/-- The configurations that a cluster can be restored from. -/
def ClusterConfig.Restorable (cfg : ClusterConfig) : Prop :=
  (∀ name, cfg.strategy ≠ .unknown name) ∧ (cfg.strategy = .singleLeader → 0 < cfg.nodeCount)

section restored

variable {id : String} {cfg : ClusterConfig}

lemma Created.quorum (h : Created H id cfg c) (hstrategy : cfg.strategy = .leaderless) :
    c.Each fun ll => ll.qConfig = quorumConfigFor cfg :=
  (h.each hstrategy).imp fun _ hll => hll.qConfig

/-- **Restoring fails** for unknown strategies, and without a node for a single leader. -/
theorem exists_core_iff :
    (∃ c : Cluster V, createClusterCore H id cfg = .ok c) ↔ cfg.Restorable := by
  dsimp only [createClusterCore, ClusterConfig.Restorable]
  cases cfg.strategy with
  | singleLeader =>
    dsimp only
    unfold createSingleLeaderCluster
    cases hids : firstIDs (Cluster.empty id cfg : Cluster V).id cfg.nodeCount.toNat with
    | nil =>
      have hlen := congrArg List.length hids
      rw [length_firstIDs, length_nil] at hlen
      refine iff_of_false (fun ⟨_, hc⟩ => by cases hc) fun hr => ?_
      have := hr.2 rfl
      omega
    | cons =>
      have hlen := congrArg List.length hids
      rw [length_firstIDs, length_cons] at hlen
      exact iff_of_true ⟨_, rfl⟩ ⟨fun _ => by simp, fun _ => by omega⟩
  | multiLeader | leaderless | raft =>
    exact iff_of_true ⟨_, rfl⟩ ⟨fun _ => by simp, fun h => by cases h⟩
  | unknown name => exact iff_of_false (fun ⟨_, hc⟩ => by cases hc) fun hr => hr.1 name rfl

end restored

lemma quorumAt_of_each {q : QuorumConfig} (h : c.Each fun ll => ll.qConfig = q) (id : String) :
    c.quorumAt id = if c.live id = true then some q else none := by
  unfold Cluster.quorumAt Cluster.replica Cluster.live
  cases hn : c.nodes id with
  | none => rfl
  | some n =>
    obtain ⟨ll, hkind, hq⟩ := h id n hn
    simp [ClusterNode.leaderless?, hkind, hq]

/-! ### Operations -/

/-- The operations after which the configuration still stands for the nodes: nodes join leaderless
clusters only and where `N` follows the number of nodes, the last node leaves, a single leader
stays, and a leaderless node leaves where `N` does not follow the number of nodes. -/
def Cluster.Restartable (c : Cluster V) : Op → Prop
  | .addNode => c.config.strategy ≠ .singleLeader ∧ c.config.strategy ≠ .multiLeader ∧
      (c.config.strategy = .leaderless →
        c.config.quorumN ≤ 0 ∨ c.config.nodeCount < c.config.quorumN)
  | .removeNode id => c.live id = true → id = nodeID c.id c.nodeIDs.length ∧
      (c.config.strategy = .singleLeader → 1 < c.nodeIDs.length) ∧
      (c.config.strategy = .leaderless →
        0 < c.config.quorumN ∧ c.config.quorumN < c.config.nodeCount)
  | .safeAddNode _ _ => True

instance (c : Cluster V) : (op : Op) → Decidable (c.Restartable op)
  | .addNode => inferInstanceAs (Decidable (_ ∧ _ ∧ _))
  | .removeNode _ => inferInstanceAs (Decidable (_ → _))
  | .safeAddNode _ _ => inferInstanceAs (Decidable True)

/-- A cluster that a restart would build again. -/
structure RestartInv (c : Cluster V) : Prop where
  restorable : c.config.Restorable
  count : c.config.nodeCount = c.nodeIDs.length
  pos : c.config.strategy = .leaderless → 0 < c.nodeIDs.length
  nodeIDs : c.nodeIDs = firstIDs c.id c.nodeIDs.length
  live : ∀ id, c.live id = true ↔ id ∈ c.nodeIDs
  leader : c.leaderID = if c.config.strategy = .singleLeader then nodeID c.id 1 else ""
  /-- Leaderless nodes have the quorum of the configuration. -/
  quorum : c.config.strategy = .leaderless →
    c.Each fun ll => ll.qConfig = quorumConfigFor c.config

lemma RestartInv.restoredCount_eq (h : RestartInv c) :
    restoredCount c.config = c.nodeIDs.length := by
  have hcount := h.count
  unfold restoredCount
  split_ifs with hzero
  · have hpos := h.pos hzero.1
    omega
  · omega

/-- **A cluster that its configuration stands for can be restarted.** -/
theorem RestartInv.transparent (h : RestartInv c) : c.Transparent H := by
  obtain ⟨c', hc'⟩ : ∃ c' : Cluster V, createClusterCore H c.id c.config = .ok c' :=
    exists_core_iff.mpr h.restorable
  have hr := created_core hc'
  have hids : firstIDs c.id (restoredCount c.config) = c.nodeIDs := by
    rw [h.restoredCount_eq]
    exact h.nodeIDs.symm
  refine ⟨c', hc', fun x => ?_, hr.leader.trans h.leader.symm, fun hstrategy x => ?_⟩
  · rw [hr.nodeIDs, hids]
  · have hlive : c'.live x = c.live x := by
      rw [Bool.eq_iff_iff, hr.live, h.live, hids]
    rw [quorumAt_of_each (hr.quorum hstrategy), quorumAt_of_each (h.quorum hstrategy), hlive]

section transparent

variable (h : c.Transparent H)
include h

lemma Cluster.Transparent.restorable : c.config.Restorable := by
  obtain ⟨c', hc', -⟩ := h
  exact exists_core_iff.mp ⟨c', hc'⟩

lemma Cluster.Transparent.mem_iff (x : String) :
    x ∈ c.nodeIDs ↔ x ∈ firstIDs c.id (restoredCount c.config) := by
  obtain ⟨c', hc', hids, -⟩ := h
  rw [← hids, (created_core hc').nodeIDs]
  rfl

lemma Cluster.Transparent.quorumAt (hstrategy : c.config.strategy = .leaderless) {x : String}
    (hx : x ∈ c.nodeIDs) : c.quorumAt x = some (quorumConfigFor c.config) := by
  have hmem := (h.mem_iff x).mp hx
  obtain ⟨c', hc', -, -, hquorum⟩ := h
  have hr := created_core hc'
  rw [← hquorum hstrategy, quorumAt_of_each (hr.quorum hstrategy), if_pos ((hr.live x).mpr hmem)]
  rfl

end transparent

/-! ### One operation -/

section left

variable {x : String}

lemma RestartInv.left_count (h : RestartInv c) (hleft : Left c c' x) :
    c'.config.nodeCount + 1 = c.nodeIDs.length := by
  have hmem := (h.live x).mp hleft.was
  have hpos := length_pos_of_mem hmem
  have hcount := h.count
  rw [hleft.count]
  split_ifs <;> omega

lemma RestartInv.left_last (h : RestartInv c) (hleft : Left c c' x)
    (hlast : x = nodeID c.id c.nodeIDs.length) :
    c'.nodeIDs = firstIDs c.id (c.nodeIDs.length - 1) := by
  have hpos := length_pos_of_mem ((h.live x).mp hleft.was)
  obtain ⟨k, hk⟩ : ∃ k, c.nodeIDs.length = k + 1 := ⟨c.nodeIDs.length - 1, by omega⟩
  have hids := h.nodeIDs
  rw [hk, firstIDs_succ] at hids
  rw [hleft.nodeIDs, hlast, hk, hids, filter_append, Nat.add_sub_cancel]
  have hall : ((firstIDs c.id k).filter fun id => id ≠ nodeID c.id (k + 1)) = firstIDs c.id k := by
    refine filter_eq_self.mpr fun id hid => decide_eq_true fun heq => ?_
    rw [heq, nodeID_mem_firstIDs] at hid
    exact lt_irrefl k hid
  rw [hall]
  simp

lemma quorumConfigFor_pred_iff {cfg : ClusterConfig} (h : 1 < cfg.nodeCount) :
    quorumConfigFor cfg = quorumConfigFor { cfg with nodeCount := cfg.nodeCount - 1 } ↔
      0 < cfg.quorumN ∧ cfg.quorumN < cfg.nodeCount := by
  have hfactor : replicationFactor cfg.quorumN cfg.nodeCount =
      replicationFactor cfg.quorumN (cfg.nodeCount - 1) ↔
        0 < cfg.quorumN ∧ cfg.quorumN < cfg.nodeCount := by
    unfold replicationFactor
    split_ifs <;> omega
  dsimp only [quorumConfigFor]
  rw [if_neg (by omega), if_neg (by omega), ← hfactor]
  constructor
  · exact fun heq => congrArg QuorumConfig.N heq
  · intro heq
    rw [heq]

lemma Left.quorumConfigFor_iff (hleft : Left c c' x) (h : 1 < c.config.nodeCount) :
    quorumConfigFor c.config = quorumConfigFor c'.config ↔
      0 < c.config.quorumN ∧ c.config.quorumN < c.config.nodeCount := by
  rw [hleft.config, if_pos (by omega)]
  exact quorumConfigFor_pred_iff h

lemma mem_nodeIDs_of_left (hleft : Left c c' x) {y : String} :
    y ∈ c'.nodeIDs ↔ y ∈ c.nodeIDs ∧ y ≠ x := by
  rw [hleft.nodeIDs, mem_filter, decide_eq_true_eq]

section restartable

variable (h : RestartInv c) (hleft : Left c c' x) (ht : c'.Transparent H)
include h hleft ht

/-- If a restart stays transparent, the last node has left. -/
lemma RestartInv.eq_last : x = nodeID c.id c.nodeIDs.length := by
  have hcount := h.left_count hleft
  have hx := (h.live x).mp hleft.was
  have hids := h.nodeIDs
  obtain ⟨k, hk⟩ : ∃ k, c.nodeIDs.length = k + 1 :=
    ⟨c.nodeIDs.length - 1, by have := length_pos_of_mem hx; omega⟩
  rw [hk] at hcount hids ⊢
  by_contra hne
  by_cases hzero : k = 0
  · -- there was one node only
    rw [hids, hzero, mem_firstIDs] at hx
    obtain ⟨i, hi, heq⟩ := hx
    obtain rfl : i = 0 := by omega
    exact hne (hzero ▸ heq.symm)
  · have hlive : nodeID c.id (k + 1) ∈ c.nodeIDs := by
      rw [hids]
      exact nodeID_mem_firstIDs.mpr (Nat.lt_succ_self k)
    have hsmaller : restoredCount c'.config = k := by
      rw [restoredCount, if_neg (by omega)]
      omega
    have hrestored := (ht.mem_iff _).mp
      ((mem_nodeIDs_of_left hleft).mpr ⟨hlive, fun heq => hne heq.symm⟩)
    rw [hsmaller, hleft.id, nodeID_mem_firstIDs] at hrestored
    exact lt_irrefl k hrestored

lemma RestartInv.one_lt_of_leaderless (hleaderless : c'.config.strategy = .leaderless) :
    1 < c.nodeIDs.length := by
  have hlast := h.eq_last hleft ht
  have hcount := h.left_count hleft
  have hpos := length_pos_of_mem ((h.live x).mp hleft.was)
  by_contra hle
  have hone : c.nodeIDs.length = 1 := by omega
  have hfive : nodeID c'.id 1 ∈ firstIDs c'.id (restoredCount c'.config) := by
    rw [restoredCount, if_pos ⟨hleaderless, by omega⟩]
    exact nodeID_mem_firstIDs.mpr (by decide)
  have hmem := (mem_nodeIDs_of_left hleft).mp ((ht.mem_iff _).mpr hfive)
  rw [hleft.id] at hmem
  rw [hone] at hlast
  exact hmem.2 hlast.symm

end restartable

/-- **A node leaves**: the rest can only be restarted if it was the last one, and the node count and
the quorums still fit. -/
theorem RestartInv.of_left_transparent (h : RestartInv c) (hleft : Left c c' x)
    (ht : c'.Transparent H) : x = nodeID c.id c.nodeIDs.length ∧
      (c.config.strategy = .singleLeader → 1 < c.nodeIDs.length) ∧
      (c.config.strategy = .leaderless →
        0 < c.config.quorumN ∧ c.config.quorumN < c.config.nodeCount) := by
  have hlast := h.eq_last hleft ht
  have hcount := h.left_count hleft
  have hcfg := h.count
  refine ⟨hlast, fun hsingle => ?_, fun hleaderless => ?_⟩
  · have := ht.restorable.2 (hleft.strategy.trans hsingle)
    omega
  · have hleaderless' := hleft.strategy.trans hleaderless
    have hlt := h.one_lt_of_leaderless hleft ht hleaderless'
    have hfirst : nodeID c.id 1 ∈ c'.nodeIDs := by
      refine (mem_nodeIDs_of_left hleft).mpr ⟨?_, fun heq => ?_⟩
      · rw [h.nodeIDs]
        exact nodeID_mem_firstIDs.mpr (Nat.lt_of_succ_lt hlt)
      · have := nodeID_injective c.id (heq.trans hlast)
        omega
    have hafter := ht.quorumAt hleaderless' hfirst
    rw [quorumAt_of_each (hleft.each _ (h.quorum hleaderless))] at hafter
    split_ifs at hafter
    exact (hleft.quorumConfigFor_iff (by omega)).mp (Option.some.inj hafter)

/-- The last node leaves, and the configuration still stands for the rest. -/
lemma RestartInv.left (h : RestartInv c) (hleft : Left c c' x)
    (hrestart : c.Restartable (.removeNode x)) : RestartInv c' := by
  obtain ⟨hlast, hsingle, hquorum⟩ := hrestart hleft.was
  have hstrategy := hleft.strategy
  have hcount := h.left_count hleft
  have hids := h.left_last hleft hlast
  have hlen : c'.nodeIDs.length = c.nodeIDs.length - 1 := by
    rw [hids, length_firstIDs]
  have hpos := length_pos_of_mem ((h.live x).mp hleft.was)
  have hcfg := h.count
  refine ⟨⟨?_, fun hs => ?_⟩, ?_, fun hs => ?_, ?_, fun id => ?_, ?_, fun hs => ?_⟩
  · rw [hstrategy]
    exact h.restorable.1
  · have := hsingle (hstrategy.symm.trans hs)
    omega
  · omega
  · have := hquorum (hstrategy.symm.trans hs)
    omega
  · rw [hlen, hleft.id]
    exact hids
  · rw [hleft.live, hleft.nodeIDs, mem_filter, decide_eq_true_eq, decide_eq_true_eq, h.live,
      and_comm]
  · rw [hleft.leader, hstrategy, hleft.id]
    exact h.leader
  · have hs' := hstrategy.symm.trans hs
    have hq := hquorum hs'
    rw [← (hleft.quorumConfigFor_iff (by omega)).mpr hq]
    exact hleft.each _ (h.quorum hs')

end left

section joined

variable {op : Op}

/-- **A node joins**: only a leaderless cluster can be restarted. -/
theorem RestartInv.leaderless_of_joined (h : RestartInv c) (hjoined : Joined c c' .addNode)
    (ht : c'.Transparent H) : c.config.strategy = .leaderless := by
  by_contra hne
  have hcount : restoredCount c'.config = c.nodeIDs.length := by
    have hcfg := h.count
    have hafter : c.countAfter .addNode = c.config.nodeCount := if_neg hne
    rw [restoredCount_of_ne (by rwa [hjoined.strategy]), hjoined.count, hafter]
    omega
  have hnew : c.newID ∈ c'.nodeIDs := by
    rw [hjoined.nodeIDs]
    exact mem_append_right _ mem_cons_self
  rw [ht.mem_iff, hcount, hjoined.id, Cluster.newID, nodeID_mem_firstIDs] at hnew
  exact lt_irrefl _ hnew

lemma follows_of_quorumConfigFor_addReplica (hcount : 0 ≤ c.config.nodeCount)
    (heq : c.grownQuorum = quorumConfigFor (c.addReplica H).config) :
    c.config.quorumN ≤ 0 ∨ c.config.nodeCount < c.config.quorumN := by
  obtain ⟨hw, hr⟩ := withMajorities_ne_zero (n := c.config.nodeCount + 1) (by omega)
    c.config.quorumW c.config.quorumR
  rw [quorumConfigFor_eq (c.addReplica H).config
    (show 1 ≤ c.config.nodeCount + 1 by omega) hw hr] at heq
  have hN : c.config.nodeCount + 1 = replicationFactor c.config.quorumN (c.config.nodeCount + 1) :=
    congrArg QuorumConfig.N heq
  unfold replicationFactor at hN
  split_ifs at hN <;> omega

/-- A node that joins keeps the invariant. -/
lemma RestartInv.joined (h : RestartInv c) (hjoined : Joined c c' op)
    (hleaderless : c.config.strategy = .leaderless)
    (hquorum : c'.Each fun ll => ll.qConfig = quorumConfigFor c'.config) : RestartInv c' := by
  have hlen : c'.nodeIDs.length = c.nodeIDs.length + 1 := by
    rw [hjoined.nodeIDs, length_append, length_singleton]
  have hcount : c'.config.nodeCount = c.nodeIDs.length + 1 := by
    have hcfg := h.count
    rw [hjoined.count]
    cases op <;> simp only [Cluster.countAfter, hleaderless, if_true] <;> omega
  refine ⟨⟨?_, fun hs => ?_⟩, ?_, fun _ => by omega, ?_, fun id => ?_, ?_, fun _ => hquorum⟩
  · rw [hjoined.strategy]
    exact h.restorable.1
  · cases (hjoined.strategy.trans hleaderless).symm.trans hs
  · omega
  · rw [hlen, hjoined.id, firstIDs_succ, ← h.nodeIDs]
    exact hjoined.nodeIDs
  · rw [hjoined.live, hjoined.nodeIDs, decide_eq_true_eq, h.live, mem_append,
      mem_singleton, or_comm]
  · rw [hjoined.leader, hjoined.strategy, hjoined.id]
    exact h.leader

end joined

/-- **Restartable operations keep the invariant.** -/
theorem restartInv_step {op : Op} (hrestart : c.Restartable op) (h : RestartInv c) :
    RestartInv (c.step H op) := by
  have hresize := resize_step H c op
  generalize hc' : c.step H op = c' at hresize
  cases hresize with
  | refused => exact h
  | joined _ _ hjoins hstrategy' hjoined =>
    have hleaderless : c.config.strategy = .leaderless := by
      rcases hstrategy' with hs | ⟨rfl, hs | hs⟩
      · exact hs
      · exact absurd hs hrestart.1
      · exact absurd hs hrestart.2.1
    refine h.joined hjoined hleaderless ?_
    rw [← hc']
    cases op with
    | addNode =>
      have hcfg := h.count
      rw [step_addNode_leaderless hleaderless,
        quorumConfigFor_addReplica (by omega) (hrestart.2.2 hleaderless)]
      exact (each_addReplica (h.quorum hleaderless)).imp fun _ hll => hll.qConfig
    | safeAddNode order divergent =>
      rw [step_safeAddNode_leaderless hleaderless]
      have hquorum := quorumConfigFor_safeAddNode (c := c) (H := H) order divergent
      show Cluster.Each (fun ll => ll.qConfig = quorumConfigFor
        ((c.addMembership H).reconcileNodes order divergent).switchQuorum.config) _
      rw [hquorum]
      exact (each_safeAddNode (h.quorum hleaderless) order divergent).imp fun _ hll => hll.qConfig
    | removeNode => cases hjoins
  | left x _ hleft => exact h.left hleft hrestart

/-- **The condition is exact**: after any other operation, a restart is not transparent. -/
theorem RestartInv.restartable_iff (h : RestartInv c) (op : Op) :
    c.Restartable op ↔ (c.step H op).Transparent H := by
  refine ⟨fun hrestart => (restartInv_step hrestart h).transparent, fun ht => ?_⟩
  have hresize := resize_step H c op
  generalize hc' : c.step H op = c' at hresize ht
  cases hresize with
  | refused _ hjoins hadd hremove =>
    cases op with
    | addNode => exact ⟨(hadd rfl).1, (hadd rfl).2, fun hs => absurd hs (hjoins rfl)⟩
    | removeNode x => exact fun hlive => by simp [hremove x rfl] at hlive
    | safeAddNode => trivial
  | joined _ _ hjoins _ hjoined =>
    cases op with
    | addNode =>
      have hs := h.leaderless_of_joined hjoined ht
      refine ⟨by simp [hs], by simp [hs], fun _ => ?_⟩
      have hcfg := h.count
      have hnew : c.newID ∈ c'.nodeIDs := by
        rw [hjoined.nodeIDs]
        exact mem_append_right _ mem_cons_self
      have hquorum := ht.quorumAt (hjoined.strategy.trans hs) hnew
      rw [← hc', step_addNode_leaderless hs,
        quorumAt_of_each ((each_addReplica (h.quorum hs)).imp fun _ hll => hll.qConfig)] at hquorum
      split_ifs at hquorum
      exact follows_of_quorumConfigFor_addReplica (by omega) (Option.some.inj hquorum)
    | removeNode => cases hjoins
    | safeAddNode => trivial
  | left x _ hleft => exact fun _ => h.of_left_transparent hleft ht

/-! ### Runs -/

/-- A restart would build a created cluster again. -/
lemma restartInv_create {id : String} {cfg : ClusterConfig}
    (hc : createCluster H id cfg = .ok c) : RestartInv c := by
  have hpos := one_le_normalized cfg
  have hcore : createClusterCore H id (normalized cfg) = .ok c := hc
  have hr := created_core hcore
  have hcount := restoredCount_of_pos hpos
  have hlen : c.nodeIDs.length = (normalized cfg).nodeCount.toNat := by
    rw [hr.nodeIDs, length_firstIDs, hcount]
  refine ⟨?_, ?_, fun _ => ?_, ?_, fun x => ?_, ?_, ?_⟩
  · rw [hr.config]
    exact exists_core_iff.mp ⟨c, hcore⟩
  · rw [hr.config, hlen]
    omega
  · omega
  · rw [hr.id_eq, hlen, ← hcount]
    exact hr.nodeIDs
  · rw [hr.live, hr.nodeIDs]
  · rw [hr.config, hr.id_eq]
    exact hr.leader
  · rw [hr.config]
    exact hr.quorum

/-- **Restarts.** In every run of a cluster, all clusters reached can be restarted transparently if
and only if nodes join leaderless clusters only and where `N` follows the number of nodes, and only
the last node leaves, from a single-leader cluster only if another node is left, and from a
leaderless one only where `N` does not follow the number of nodes. -/
theorem restart_transparent_iff (H : Hashing String String) {id : String} {cfg : ClusterConfig}
    (hc : createCluster H id cfg = .ok c) (ops : List Op) :
    Along (Cluster.step H) Cluster.Restartable c ops ↔
      ∀ ops', ops' <+: ops → (run (Cluster.step H) c ops').Transparent H :=
  along_iff_forall_prefix RestartInv (Cluster.Transparent H) (fun _ h => h.transparent)
    (fun _ op h => h.restartable_iff op) (fun _ _ hrestart h => restartInv_step hrestart h)
    (restartInv_create hc) ops

/-- A cluster whose quorum is for `quorumN` replicas. -/
private def saved (strategy : ReplicationStrategy) (nodeCount quorumN : ℤ) :
    Except String (Cluster ℕ) :=
  createCluster HashRing.fnv "3f2a9c1e-5b7d-4e21-9a60-0d4c8f1b2e33"
    { ClusterConfig.bare strategy nodeCount with quorumN := quorumN }

/-- One of four nodes leaves a cluster with `N = 2`, which can be restarted. -/
theorem restart_transparent_shrunk : ∃ c, saved .leaderless 4 2 = .ok c ∧
    (run (Cluster.step HashRing.fnv) c [.removeNode "node-3f2a9c1e-4"]).nodeIDs.length = 3 ∧
    (run (Cluster.step HashRing.fnv) c [.removeNode "node-3f2a9c1e-4"]).Transparent
      HashRing.fnv := by
  have hrun : ∃ c ∈ (saved .leaderless 4 2).toOption,
      Along (Cluster.step HashRing.fnv) Cluster.Restartable c [.removeNode "node-3f2a9c1e-4"] ∧
      (run (Cluster.step HashRing.fnv) c [.removeNode "node-3f2a9c1e-4"]).nodeIDs.length = 3 := by
    decide +kernel
  obtain ⟨c, hc, hrestart, hlen⟩ := hrun
  have hc := eq_ok_of_mem_toOption hc
  exact ⟨c, hc, hlen, (restart_transparent_iff HashRing.fnv hc _).mp hrestart _ (prefix_refl _)⟩

/-- A node that joins a single-leader cluster is gone after a restart; where the first of three
leaderless nodes has left, it comes back in place of the third; and a single-leader cluster that its
last node has left cannot be restored. -/
theorem restart_changes_nodes :
    (∃ c ∈ (saved .singleLeader 2 0).toOption,
      ∃ c' ∈ (restoreRecord (V := ℕ) HashRing.fnv
          (run (Cluster.step HashRing.fnv) c [.addNode]).record).toOption,
        (run (Cluster.step HashRing.fnv) c [.addNode]).nodeIDs =
          ["node-3f2a9c1e-1", "node-3f2a9c1e-2", "node-3f2a9c1e-3"] ∧
        c'.nodeIDs = ["node-3f2a9c1e-1", "node-3f2a9c1e-2"]) ∧
    (∃ c ∈ (saved .leaderless 3 0).toOption,
      ∃ c' ∈ (restoreRecord (V := ℕ) HashRing.fnv
          (run (Cluster.step HashRing.fnv) c [.removeNode "node-3f2a9c1e-1"]).record).toOption,
        (run (Cluster.step HashRing.fnv) c [.removeNode "node-3f2a9c1e-1"]).nodeIDs =
          ["node-3f2a9c1e-2", "node-3f2a9c1e-3"] ∧
        c'.nodeIDs = ["node-3f2a9c1e-1", "node-3f2a9c1e-2"]) ∧
    ∃ c ∈ (saved .singleLeader 1 0).toOption,
      (restoreRecord (V := ℕ) HashRing.fnv
        (run (Cluster.step HashRing.fnv) c
          [.removeNode "node-3f2a9c1e-1"]).record).toOption.isNone = true := by
  decide +kernel

end Replication.Simulation
