import Replication.HashRing.Growth
import Replication.Simulation.Bookkeeping

/-!
# Simulation · Quorums: resizing leaderless clusters

Whether live nodes have the membership and the quorum that the cluster records.

* `AgreeInv`, `agreeInv_step` — which operations keep it so.
-/

set_option linter.unusedSectionVars false

namespace Replication.Simulation

open Storage Node Leaderless Library
open HashRing (Hashing)

variable {V : Type} [Inhabited V] [DecidableEq V] {c c' : Cluster V} {H : Hashing String String}
  {P : LeaderlessNode String String V → Prop} {id : String} {ids : List String}

/-- All live nodes have the membership and the quorum that the cluster records. -/
def Cluster.Agrees (H : Hashing String String) (c : Cluster V) : Prop :=
  c.Each (Configured H c.nodeIDs (quorumConfigFor c.config))

/-! ### What operations tell the nodes -/

lemma configured_new (id : String) (ids : List String) (q : QuorumConfig) :
    Configured H ids q
      ((LeaderlessNode.new H id q : LeaderlessNode String String V).setAllNodes H ids) :=
  ⟨rfl, rfl, rfl⟩

lemma each_setMembership (h : c.Each P) (ids : List String) :
    (c.setMembership H ids).Each fun ll => ∃ q, Configured H ids q ll :=
  h.mapLeaderless fun ll _ => ⟨ll.qConfig, rfl, rfl, rfl⟩

lemma each_setQuorum (h : c.Each fun ll => ∃ q, Configured H ids q ll) (q : QuorumConfig) :
    (c.setQuorum q).Each (Configured H ids q) :=
  h.mapLeaderless fun _ ⟨_, hll⟩ => ⟨hll.allNodes, hll.ring, rfl⟩

lemma each_reconcileNodes (h : c.Each fun ll => ∃ q, Configured H ids q ll)
    (order : String → List String) (divergent : List String) :
    (c.reconcileNodes order divergent).Each fun ll => ∃ q, Configured H ids q ll :=
  h.map (f := fun id ll => { ll with
      store := runAntiEntropy c.stores c.online order divergent id })
    (fun _ _ ⟨q, hll⟩ => ⟨q, hll.allNodes, hll.ring, hll.qConfig⟩) fun _ => rfl

lemma each_addMembership (h : c.Each P) :
    (c.addMembership H).Each fun ll => ∃ q, Configured H (c.nodeIDs ++ [c.newID]) q ll :=
  (each_setMembership h _).insert ⟨c.oldQuorum, configured_new _ _ _⟩ []

lemma each_addReplica (h : c.Each P) :
    (c.addReplica H).Each (Configured H (c.nodeIDs ++ [c.newID]) c.grownQuorum) :=
  (each_setQuorum (each_setMembership h _) _).insert (configured_new _ _ _) []

lemma each_safeAddNode (h : c.Each P) (order : String → List String) (divergent : List String) :
    (((c.addMembership H).reconcileNodes order divergent).switchQuorum.pushRegions).Each
      (Configured H (c.nodeIDs ++ [c.newID])
        (withMajorities (c.nodeIDs ++ [c.newID]).length 0 0)) :=
  Cluster.Each.pushRegions
    (each_setQuorum (each_reconcileNodes (each_addMembership h) order divergent) _)

/-! ### What the configuration records -/

lemma withMajorities_ne_zero {n : ℤ} (hn : 0 ≤ n) (w r : ℤ) :
    (withMajorities n w r).W ≠ 0 ∧ (withMajorities n w r).R ≠ 0 := by
  have hdiv : 0 ≤ n.tdiv 2 := Int.tdiv_nonneg hn (by decide)
  constructor
  · show (if w = 0 then n.tdiv 2 + 1 else w) ≠ 0
    split_ifs <;> omega
  · show (if r = 0 then n.tdiv 2 + 1 else r) ≠ 0
    split_ifs <;> omega

lemma withMajorities_self {n w r : ℤ} (hw : w ≠ 0) (hr : r ≠ 0) :
    withMajorities n w r = ⟨n, w, r⟩ := by
  rw [withMajorities, if_neg hw, if_neg hr]

lemma quorumConfigFor_eq (cfg : ClusterConfig) (hcount : 1 ≤ cfg.nodeCount) (hw : cfg.quorumW ≠ 0)
    (hr : cfg.quorumR ≠ 0) : quorumConfigFor cfg =
      ⟨replicationFactor cfg.quorumN cfg.nodeCount, cfg.quorumW, cfg.quorumR⟩ := by
  unfold quorumConfigFor
  rw [if_neg (by omega), withMajorities_self hw hr]

/-- The grown quorum is that of the new configuration. -/
lemma quorumConfigFor_addReplica (hcount : 0 ≤ c.config.nodeCount)
    (hN : c.config.quorumN ≤ 0 ∨ c.config.nodeCount < c.config.quorumN) :
    quorumConfigFor (c.addReplica H).config = c.grownQuorum := by
  have hN' : replicationFactor c.config.quorumN (c.config.nodeCount + 1) =
      c.config.nodeCount + 1 := by
    unfold replicationFactor
    split_ifs <;> omega
  obtain ⟨hw, hr⟩ := withMajorities_ne_zero (n := c.config.nodeCount + 1) (by omega)
    c.config.quorumW c.config.quorumR
  have heq := quorumConfigFor_eq (c.addReplica H).config
    (show 1 ≤ c.config.nodeCount + 1 by omega) hw hr
  rw [heq]
  show (⟨replicationFactor c.config.quorumN (c.config.nodeCount + 1), c.grownQuorum.W,
    c.grownQuorum.R⟩ : QuorumConfig) = c.grownQuorum
  rw [hN']
  rfl

lemma quorumConfigFor_switchQuorum (hpos : 1 ≤ c.nodeIDs.length) :
    quorumConfigFor c.switchQuorum.config = withMajorities c.nodeIDs.length 0 0 := by
  have hN : replicationFactor c.nodeIDs.length c.nodeIDs.length = c.nodeIDs.length := by
    unfold replicationFactor
    split_ifs <;> omega
  obtain ⟨hw, hr⟩ := withMajorities_ne_zero (n := (c.nodeIDs.length : ℤ)) (by omega) 0 0
  have heq := quorumConfigFor_eq c.switchQuorum.config
    (show (1 : ℤ) ≤ c.nodeIDs.length by omega) hw hr
  rw [heq]
  show (⟨replicationFactor c.nodeIDs.length c.nodeIDs.length, _, _⟩ : QuorumConfig) = _
  rw [hN]
  rfl

/-! ### Agreement -/

/-- Nodes leave only when no other node is left, and `AddNode` is called only where `N` follows the
number of nodes. -/
def Cluster.KeepsAgreement (c : Cluster V) : Op → Prop
  | .addNode => c.config.quorumN ≤ 0 ∨ c.config.nodeCount < c.config.quorumN
  | .removeNode nodeID => c.live nodeID = true → ∀ id ∈ c.nodeIDs, id = nodeID
  | .safeAddNode _ _ => True

instance (c : Cluster V) : (op : Op) → Decidable (c.KeepsAgreement op)
  | .addNode => inferInstanceAs (Decidable (_ ∨ _))
  | .removeNode _ => inferInstanceAs (Decidable (_ → ∀ _ ∈ _, _))
  | .safeAddNode _ _ => inferInstanceAs (Decidable True)

/-- A leaderless cluster in which all nodes agree. -/
structure AgreeInv (H : Hashing String String) (c : Cluster V) : Prop where
  strategy : c.config.strategy = .leaderless
  count : 0 ≤ c.config.nodeCount
  ids : ∀ id, c.live id = true → id ∈ c.nodeIDs
  agrees : c.Agrees H

lemma step_addNode_leaderless (hstrategy : c.config.strategy = .leaderless) :
    c.step H .addNode = c.addReplica H := by
  unfold Cluster.step Cluster.addNode
  rw [hstrategy]

lemma step_safeAddNode_leaderless (hstrategy : c.config.strategy = .leaderless)
    (order : String → List String) (divergent : List String) :
    c.step H (.safeAddNode order divergent) =
      ((c.addMembership H).reconcileNodes order divergent).switchQuorum.pushRegions := by
  dsimp only [Cluster.step, Cluster.safeAddNode]
  rw [if_neg fun hne => hne hstrategy]
  rfl

lemma quorumConfigFor_safeAddNode (order : String → List String) (divergent : List String) :
    quorumConfigFor ((c.addMembership H).reconcileNodes order divergent).switchQuorum.config =
      withMajorities (c.nodeIDs ++ [c.newID]).length 0 0 :=
  quorumConfigFor_switchQuorum (c := (c.addMembership H).reconcileNodes order divergent)
    (show 1 ≤ (c.nodeIDs ++ [c.newID]).length by simp)

/-- Adding a node keeps the agreement. -/
lemma agrees_addNode (hstrategy : c.config.strategy = .leaderless)
    (hcount : 0 ≤ c.config.nodeCount) (hkeeps : c.KeepsAgreement .addNode) (h : c.Agrees H) :
    (c.step H .addNode).Agrees H := by
  rw [step_addNode_leaderless hstrategy, Cluster.Agrees, quorumConfigFor_addReplica hcount hkeeps]
  exact each_addReplica h

/-- So does adding one safely. -/
lemma agrees_safeAddNode (hstrategy : c.config.strategy = .leaderless)
    (order : String → List String) (divergent : List String) (h : c.Agrees H) :
    (c.step H (.safeAddNode order divergent)).Agrees H := by
  rw [step_safeAddNode_leaderless hstrategy, Cluster.Agrees]
  show Cluster.Each (Configured H (c.nodeIDs ++ [c.newID])
    (quorumConfigFor ((c.addMembership H).reconcileNodes order divergent).switchQuorum.config)) _
  rw [quorumConfigFor_safeAddNode]
  exact each_safeAddNode h order divergent

/-- **Agreement stays** under operations that keep it. -/
theorem agreeInv_step {op : Op} (hkeeps : c.KeepsAgreement op) (h : AgreeInv H c) :
    AgreeInv H (c.step H op) := by
  have hcount := h.count
  have hresize := resize_step H c op
  generalize hc' : c.step H op = c' at hresize
  cases hresize with
  | refused => exact h
  | joined _ _ hjoins _ hjoined =>
    refine ⟨hjoined.strategy.trans h.strategy, ?_, fun id hid => ?_, ?_⟩
    · rw [hjoined.count]
      cases op <;> simp only [Cluster.countAfter, h.strategy, if_true] <;> omega
    · rw [hjoined.live, decide_eq_true_eq] at hid
      rw [hjoined.nodeIDs]
      rcases hid with rfl | hid
      · exact List.mem_append_right _ (List.mem_singleton.mpr rfl)
      · exact List.mem_append_left _ (h.ids id hid)
    · rw [← hc']
      cases op with
      | addNode => exact agrees_addNode h.strategy hcount hkeeps h.agrees
      | safeAddNode order divergent =>
        exact agrees_safeAddNode h.strategy order divergent h.agrees
      | removeNode => cases hjoins
  | left nodeID _ hleft =>
    -- no node is left
    have hnone : ∀ id, c'.live id = false := by
      intro id
      by_contra hlive
      rw [Bool.not_eq_false, hleft.live, decide_eq_true_eq] at hlive
      exact hlive.1 (hkeeps hleft.was id (h.ids id hlive.2))
    refine ⟨hleft.strategy.trans h.strategy, ?_, fun id hid => ?_, fun id n hn => ?_⟩
    · rw [hleft.count]
      split_ifs <;> omega
    · simp [hnone id] at hid
    · have hid := hnone id
      simp [Cluster.live, hn] at hid

/-- A created cluster agrees. -/
lemma agreeInv_create {cfg : ClusterConfig} (hstrategy : cfg.strategy = .leaderless)
    (hc : createCluster H id cfg = .ok c) : AgreeInv H c := by
  have hcreated := created_spec hc
  have hpos := one_le_normalized cfg
  refine ⟨?_, ?_, fun x hx => ?_, ?_⟩
  · rw [hcreated.config]
    exact hstrategy
  · rw [hcreated.config]
    omega
  · rw [hcreated.nodeIDs]
    exact (hcreated.live x).mp hx
  · rw [Cluster.Agrees, hcreated.config, hcreated.nodeIDs]
    exact hcreated.each hstrategy

/-- **Quorum agreement**: in a run of a leaderless cluster in which a node is removed only if no
other node is left, and `AddNode` is called only where `N` follows the number of nodes, all live
nodes have the membership and the quorum that the cluster records. -/
theorem quorum_agreement (H : Hashing String String) {id : String} {cfg : ClusterConfig}
    (hstrategy : cfg.strategy = .leaderless) (hc : createCluster H id cfg = .ok c) (ops : List Op)
    (hkeeps : Along (Cluster.step H) Cluster.KeepsAgreement c ops) :
    (run (Cluster.step H) c ops).Agrees H :=
  (run_invariant (AgreeInv H) (fun _ _ hop h => agreeInv_step hop h) hkeeps
    (agreeInv_create hstrategy hc)).agrees

/-- Leaderless nodes under an id that is a UUID. -/
private def replicas (nodeCount quorumN : ℤ) : Except String (Cluster ℕ) :=
  createCluster HashRing.fnv "3f2a9c1e-5b7d-4e21-9a60-0d4c8f1b2e33"
    { ClusterConfig.bare .leaderless nodeCount with quorumN := quorumN }

/-- A cluster of three nodes grows in both ways. -/
theorem quorum_agreement_grow : ∃ c, replicas 3 0 = .ok c ∧
    (run (Cluster.step HashRing.fnv) c [.addNode, .safeAddNode (fun _ => []) []]).Agrees
      HashRing.fnv := by
  have hrun : ∃ c ∈ (replicas 3 0).toOption, Along (Cluster.step HashRing.fnv)
      Cluster.KeepsAgreement c [.addNode, .safeAddNode (fun _ => []) []] := by
    decide +kernel
  obtain ⟨c, hc, hkeeps⟩ := hrun
  exact ⟨c, eq_ok_of_mem_toOption hc,
    quorum_agreement HashRing.fnv rfl (eq_ok_of_mem_toOption hc) _ hkeeps⟩

/-- When one of three nodes is removed, the others keep it in their membership and keep `N = 3`,
which is not recorded any more. When a node joins three with `N = 2`, all nodes get `N = 4`, and `N
= 2` stays recorded. -/
theorem quorum_disagreement :
    (∃ c ∈ (replicas 3 0).toOption,
      ∃ n ∈ (run (Cluster.step HashRing.fnv) c [.removeNode "node-3f2a9c1e-1"]).replica
          "node-3f2a9c1e-2",
        n.allNodes = ["node-3f2a9c1e-1", "node-3f2a9c1e-2", "node-3f2a9c1e-3"] ∧
        (run (Cluster.step HashRing.fnv) c [.removeNode "node-3f2a9c1e-1"]).nodeIDs =
          ["node-3f2a9c1e-2", "node-3f2a9c1e-3"] ∧
        n.qConfig = ⟨3, 2, 2⟩ ∧
        quorumConfigFor (run (Cluster.step HashRing.fnv) c
          [.removeNode "node-3f2a9c1e-1"]).config = ⟨2, 2, 2⟩) ∧
    ∃ c ∈ (replicas 3 2).toOption,
      ∃ n ∈ (run (Cluster.step HashRing.fnv) c [.addNode]).replica "node-3f2a9c1e-1",
        n.qConfig = ⟨4, 3, 3⟩ ∧
        quorumConfigFor (run (Cluster.step HashRing.fnv) c [.addNode]).config = ⟨2, 3, 3⟩ := by
  decide +kernel

/-! ### Safe reconfiguration -/

/-- The live nodes are those of the id list, and have its membership and the quorum that a safe
reconfiguration keeps. -/
structure Cluster.Uniform (H : Hashing String String) (c : Cluster V) : Prop where
  keys : ∀ id, id ∈ c.nodeIDs ↔ c.live id = true
  each : c.Each (Configured H c.nodeIDs c.oldQuorum)

lemma Cluster.Each.replica (h : c.Each P) {n : LeaderlessNode String String V}
    (hn : n ∈ c.replica id) : P n := by
  obtain ⟨node, hnode, hll⟩ := Option.bind_eq_some_iff.mp hn
  obtain ⟨ll, hkind, hP⟩ := h id node hnode
  rw [ClusterNode.leaderless?, hkind] at hll
  cases hll
  exact hP

lemma live_of_mem_replica {n : LeaderlessNode String String V} (hn : n ∈ c.replica id) :
    c.live id = true := by
  obtain ⟨node, hnode, -⟩ := Option.bind_eq_some_iff.mp hn
  rw [Cluster.live, hnode]
  rfl

lemma Cluster.Uniform.addMembership (h : c.Uniform H) :
    (c.addMembership H).Each (Configured H (c.nodeIDs ++ [c.newID]) c.oldQuorum) :=
  Cluster.Each.insert (h.each.mapLeaderless fun _ hll => ⟨rfl, rfl, hll.qConfig⟩)
    (configured_new _ _ _) []

lemma uniform_create {cfg : ClusterConfig} (hstrategy : cfg.strategy = .leaderless)
    (hc : createCluster H id cfg = .ok c) : c.Uniform H := by
  have hpos := one_le_normalized cfg
  have hcreated := created_spec hc
  have hbook := hcreated.bookkept hpos
  refine ⟨hbook.keys, ?_⟩
  have hquorum : c.oldQuorum = quorumConfigFor c.config := by
    unfold quorumConfigFor
    rw [if_neg (by rw [hcreated.config]; omega), hbook.count]
    rfl
  rw [hquorum]
  exact (agreeInv_create hstrategy hc).agrees

/-- **Overlap in phase 1**: where all nodes have the quorum that is kept, with `W + R > N`, every
`W` replicas of a key from before meet every `R` replicas in the enlarged ring if and only if the
new node is not a replica of the key, or there is more overlap than one node. -/
theorem safeAddNode_overlap_iff (H : Hashing String String) (hc : c.Uniform H) {i j : String}
    {n m : LeaderlessNode String String V} (hn : n ∈ c.replica i)
    (hm : m ∈ (c.addMembership H).replica j) (key : String)
    (hWR : c.oldQuorum.N < c.oldQuorum.W + c.oldQuorum.R) :
    Meets (n.replicasFor H key) (m.replicasFor H key) c.oldQuorum.W c.oldQuorum.R ↔
      HashRing.Ring.Keeps H (HashRing.Ring.ofMembers H c.nodeIDs) c.newID key c.oldQuorum.N ∨
        c.oldQuorum.N + 1 < c.oldQuorum.W + c.oldQuorum.R ∨
        c.oldQuorum.N < c.oldQuorum.W ∨ c.oldQuorum.N < c.oldQuorum.R := by
  have hold := hc.each.replica hn
  have hnew := hc.addMembership.replica hm
  have hne : c.nodeIDs ≠ [] := List.ne_nil_of_mem ((hc.keys i).mpr (live_of_mem_replica hn))
  have hN : 1 ≤ c.oldQuorum.N := by
    have hlen := List.length_pos_iff.mpr hne
    show 1 ≤ replicationFactor c.config.quorumN c.nodeIDs.length
    unfold replicationFactor
    split_ifs <;> omega
  have holdReplicas : n.replicasFor H key =
      (HashRing.Ring.ofMembers H c.nodeIDs).preferenceList H key c.oldQuorum.N := by
    rw [replicasFor_eq_preferenceList (by rw [hold.ring, hold.allNodes])
      (by rw [hold.qConfig]; exact hN) (by rw [hold.allNodes]; exact hne), hold.ring, hold.qConfig]
  have hnewReplicas : m.replicasFor H key =
      ((HashRing.Ring.ofMembers H c.nodeIDs).add H c.newID).preferenceList H key
        c.oldQuorum.N := by
    have hring : HashRing.Ring.ofMembers H (c.nodeIDs ++ [c.newID]) =
        (HashRing.Ring.ofMembers H c.nodeIDs).add H c.newID := List.foldl_append
    rw [replicasFor_eq_preferenceList (by rw [hnew.ring, hnew.allNodes])
      (by rw [hnew.qConfig]; exact hN) (by rw [hnew.allNodes]; simp), hnew.ring, hnew.qConfig,
      hring]
  rw [holdReplicas, hnewReplicas]
  exact HashRing.Ring.meets_preferenceList_add_iff (HashRing.Ring.valid_ofMembers H _)
    (by omega) hWR

/-- A node joins a single node, and the key `k` stays where it is. -/
theorem safeAddNode_overlap_kept : ∃ c n m, replicas 1 0 = .ok c ∧
    n ∈ c.replica "node-3f2a9c1e-1" ∧
    m ∈ (c.addMembership HashRing.fnv).replica "node-3f2a9c1e-2" ∧
    Meets (n.replicasFor HashRing.fnv "k") (m.replicasFor HashRing.fnv "k") 1 1 := by
  have hrun : ∃ c ∈ (replicas 1 0).toOption, ∃ n ∈ c.replica "node-3f2a9c1e-1",
      ∃ m ∈ (c.addMembership HashRing.fnv).replica "node-3f2a9c1e-2", c.oldQuorum = ⟨1, 1, 1⟩ ∧
        HashRing.Ring.Keeps HashRing.fnv (HashRing.Ring.ofMembers HashRing.fnv c.nodeIDs) c.newID
          "k" 1 := by
    decide +kernel
  obtain ⟨c, hc, n, hn, m, hm, hq, hkeeps⟩ := hrun
  have hc := eq_ok_of_mem_toOption hc
  have hiff := safeAddNode_overlap_iff HashRing.fnv (uniform_create rfl hc) hn hm "k"
    (by rw [hq]; decide)
  rw [hq] at hiff
  exact ⟨c, n, m, hc, hn, hm, hiff.mpr (.inl hkeeps)⟩

/-- A node joins a single node, and the key `key` moves: the replica that has acknowledged a write
with `W = 1` is not one that a read with `R = 1` relies on. -/
theorem safeAddNode_gap : ∃ c n m, replicas 1 0 = .ok c ∧ c.oldQuorum = ⟨1, 1, 1⟩ ∧
    n ∈ c.replica "node-3f2a9c1e-1" ∧
    m ∈ (c.addMembership HashRing.fnv).replica "node-3f2a9c1e-1" ∧
    n.replicasFor HashRing.fnv "key" = ["node-3f2a9c1e-1"] ∧
    m.replicasFor HashRing.fnv "key" = ["node-3f2a9c1e-2"] ∧
    ¬ Meets (n.replicasFor HashRing.fnv "key") (m.replicasFor HashRing.fnv "key") 1 1 := by
  have hrun : ∃ c ∈ (replicas 1 0).toOption, ∃ n ∈ c.replica "node-3f2a9c1e-1",
      ∃ m ∈ (c.addMembership HashRing.fnv).replica "node-3f2a9c1e-1", c.oldQuorum = ⟨1, 1, 1⟩ ∧
        n.replicasFor HashRing.fnv "key" = ["node-3f2a9c1e-1"] ∧
        m.replicasFor HashRing.fnv "key" = ["node-3f2a9c1e-2"] := by
    decide +kernel
  obtain ⟨c, hc, n, hn, m, hm, hq, hold, hnew⟩ := hrun
  refine ⟨c, n, m, eq_ok_of_mem_toOption hc, hq, hn, hm, hold, hnew, fun hmeets => ?_⟩
  rw [hold, hnew] at hmeets
  obtain ⟨a, ha, ha'⟩ := hmeets ["node-3f2a9c1e-1"] ["node-3f2a9c1e-2"] (List.nodup_singleton _)
    (List.nodup_singleton _) (List.Subset.refl _) (List.Subset.refl _) rfl rfl
  rw [List.mem_singleton.mp ha] at ha'
  exact absurd ha' (by decide)

end Replication.Simulation
