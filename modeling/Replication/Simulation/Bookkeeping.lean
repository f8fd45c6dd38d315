import Replication.Simulation.Resizing

/-!
# Simulation · Bookkeeping: ids, counts and leaders

* `Bookkept` — ids are distinct and those of the live nodes, the recorded node count is their
  number, and the leader is one of them.
-/

set_option linter.unusedSectionVars false

namespace Replication.Simulation

open Storage Node Leaderless Library List
open HashRing (Hashing)

variable {V : Type} [Inhabited V] [DecidableEq V] {c c' : Cluster V} {H : Hashing String String}

/-- The records agree with each other. -/
structure Bookkept (c : Cluster V) : Prop where
  nodup : c.nodeIDs.Nodup
  keys : ∀ id, id ∈ c.nodeIDs ↔ c.live id = true
  count : c.config.nodeCount = c.nodeIDs.length
  leader : c.leaderID = "" ∨ c.leaderID ∈ c.nodeIDs

/-! ### New clusters -/

lemma eq_ok_of_mem_toOption {e : Except String (Cluster V)} (h : c ∈ e.toOption) : e = .ok c := by
  cases e with
  | ok =>
    cases h
    rfl
  | error => cases h

lemma nodup_firstIDs (clusterID : String) (k : ℕ) : (firstIDs clusterID k).Nodup :=
  nodup_range.map fun _ _ h => Nat.succ_injective (nodeID_injective clusterID h)

lemma mem_firstIDs {clusterID id : String} {k : ℕ} :
    id ∈ firstIDs clusterID k ↔ ∃ i < k, nodeID clusterID (i + 1) = id := by
  simp only [firstIDs, mem_map, mem_range]

lemma length_firstIDs (clusterID : String) (k : ℕ) : (firstIDs clusterID k).length = k := by
  rw [firstIDs, length_map, length_range]

lemma firstIDs_succ (clusterID : String) (k : ℕ) :
    firstIDs clusterID (k + 1) = firstIDs clusterID k ++ [nodeID clusterID (k + 1)] := by
  rw [firstIDs, range_succ, map_append]
  rfl

lemma eq_nodeID_one {clusterID x : String} {k : ℕ} {l : List String}
    (h : firstIDs clusterID k = x :: l) : x = nodeID clusterID 1 := by
  cases k with
  | zero => exact absurd h (cons_ne_nil x l).symm
  | succ =>
    rw [firstIDs, range_succ_eq_map, map_cons] at h
    exact (List.cons.inj h).1.symm

lemma nodeID_mem_firstIDs {clusterID : String} {i k : ℕ} :
    nodeID clusterID (i + 1) ∈ firstIDs clusterID k ↔ i < k := by
  rw [mem_firstIDs]
  constructor
  · rintro ⟨j, hj, heq⟩
    have := nodeID_injective clusterID heq
    omega
  · exact fun h => ⟨i, h, rfl⟩

/-- A node has a membership, the ring of it, and a quorum. -/
structure Configured (H : Hashing String String) (ids : List String) (q : QuorumConfig)
    (ll : LeaderlessNode String String V) : Prop where
  allNodes : ll.allNodes = ids
  ring : ll.ring = HashRing.Ring.ofMembers H ids
  qConfig : ll.qConfig = q

lemma Cluster.Each.pushRegions {ids : List String} {q : QuorumConfig}
    (h : c.Each (Configured H ids q)) : c.pushRegions.Each (Configured H ids q) :=
  h.mapLeaderless fun _ hll => ⟨hll.allNodes, hll.ring, hll.qConfig⟩

/-- The number of nodes that a configuration stands for. -/
def restoredCount (cfg : ClusterConfig) : ℕ :=
  if cfg.strategy = .leaderless ∧ cfg.nodeCount = 0 then 5 else cfg.nodeCount.toNat

/-- What a configuration stands for: the nodes `1 .. NodeCount`, led by the first one if there is a
leader, and with its quorum if they are leaderless. -/
structure Created (H : Hashing String String) (id : String) (cfg : ClusterConfig)
    (c : Cluster V) : Prop where
  id_eq : c.id = id
  config : c.config = cfg
  nodeIDs : c.nodeIDs = firstIDs id (restoredCount cfg)
  live : ∀ x, c.live x = true ↔ x ∈ firstIDs id (restoredCount cfg)
  leader : c.leaderID = if cfg.strategy = .singleLeader then nodeID id 1 else ""
  each : cfg.strategy = .leaderless →
    c.Each (Configured H (firstIDs id (restoredCount cfg)) (quorumConfigFor cfg))

section create

variable {id : String} {cfg : ClusterConfig}

lemma restoredCount_of_ne (h : cfg.strategy ≠ .leaderless) :
    restoredCount cfg = cfg.nodeCount.toNat :=
  if_neg fun hand => h hand.1

lemma created_foldl (f : String → ClusterNode V) {k : ℕ} (hk : restoredCount cfg = k)
    (hsingle : cfg.strategy ≠ .singleLeader) (hf : cfg.strategy = .leaderless → ∀ x, ∃ ll,
      (f x).kind = .leaderless ll ∧ Configured H (firstIDs id k) (quorumConfigFor cfg) ll) :
    Created H id cfg ((firstIDs id k).foldl (fun c x => c.insert x (f x))
      (Cluster.empty id cfg)) := by
  subst hk
  obtain ⟨hids, hid, hconfig, hleader⟩ :=
    Cluster.foldl_insert f (firstIDs id (restoredCount cfg)) (Cluster.empty id cfg)
  refine ⟨hid, hconfig, hids, fun x => ?_, ?_, fun hstrategy x n hn => ?_⟩
  · rw [Cluster.live, Cluster.nodes_foldl_insert]
    by_cases hx : x ∈ firstIDs id (restoredCount cfg) <;> simp [hx, Cluster.empty]
  · rw [hleader, if_neg hsingle]
    rfl
  · rw [Cluster.nodes_foldl_insert] at hn
    split_ifs at hn
    · cases hn
      exact hf hstrategy x
    · cases hn

lemma created_singleLeader (hstrategy : cfg.strategy = .singleLeader)
    (h : createSingleLeaderCluster (Cluster.empty id cfg) cfg = .ok c) : Created H id cfg c := by
  have hcount : restoredCount cfg = _ := restoredCount_of_ne (by simp [hstrategy])
  unfold createSingleLeaderCluster at h
  split at h
  · cases h
  case h_2 leaderID followers hfirst =>
    cases h
    replace hfirst : firstIDs id (restoredCount cfg) = leaderID :: followers := hcount ▸ hfirst
    obtain ⟨hids, hid, hconfig, hleader⟩ :=
      Cluster.foldl_insert (fun _ => (⟨.follower leaderID, []⟩ : ClusterNode V)) followers
        ({ Cluster.empty id cfg with leaderID := leaderID }.insert leaderID
          (withPeers (.leader (cfg.replicationMode.getD .async)) followers))
    refine ⟨hid, hconfig, ?_, fun x => ?_, ?_, fun hleaderless => ?_⟩
    · rw [hids, hfirst]
      rfl
    · rw [Cluster.live, Cluster.nodes_foldl_insert, Cluster.nodes_insert, hfirst, mem_cons]
      by_cases hx : x ∈ followers
      · simp [hx]
      by_cases hlead : x = leaderID
      · subst hlead
        simp [hx]
      · simp [hx, hlead, Cluster.empty]
    · rw [if_pos hstrategy, hleader]
      exact eq_nodeID_one hfirst
    · cases hstrategy.symm.trans hleaderless

lemma Created.assignRegions (h : Created H id cfg c) :
    Created H id cfg (c.assignRegions cfg) := by
  refine ⟨h.id_eq, h.config, h.nodeIDs, fun x => ?_, h.leader,
    fun hs => Cluster.Each.pushRegions (h.each hs)⟩
  rw [Cluster.assignRegions, Cluster.pushRegions, Cluster.live_mapNodes]
  exact h.live x

/-- **What is created, and restored.** -/
theorem created_core (h : createClusterCore H id cfg = .ok c) : Created H id cfg c := by
  dsimp only [createClusterCore] at h
  cases hstrategy : cfg.strategy with
  | singleLeader =>
    rw [hstrategy] at h
    dsimp only at h
    cases hcreate : createSingleLeaderCluster (Cluster.empty id cfg : Cluster V) cfg with
    | error =>
      rw [hcreate] at h
      cases h
    | ok =>
      rw [hcreate] at h
      cases h
      exact (created_singleLeader hstrategy hcreate).assignRegions
  | multiLeader | raft =>
    rw [hstrategy] at h
    cases h
    exact (created_foldl _ (restoredCount_of_ne (by simp [hstrategy])) (by simp [hstrategy])
      (by simp [hstrategy])).assignRegions
  | leaderless =>
    rw [hstrategy] at h
    cases h
    have hcount : restoredCount cfg =
        (if cfg.nodeCount = 0 then 5 else cfg.nodeCount : ℤ).toNat := by
      unfold restoredCount
      by_cases hzero : cfg.nodeCount = 0 <;> simp [hstrategy, hzero]
    exact (created_foldl _ hcount (by simp [hstrategy])
      fun _ _ => ⟨_, rfl, rfl, rfl, rfl⟩).assignRegions
  | unknown =>
    rw [hstrategy] at h
    cases h

/-- The configuration that a cluster is created with. -/
def normalized (cfg : ClusterConfig) : ClusterConfig :=
  { cfg with
    nodeCount := if cfg.nodeCount < 1 then 3 else cfg.nodeCount
    replicationMode := some (cfg.replicationMode.getD .async) }

lemma one_le_normalized (cfg : ClusterConfig) : 1 ≤ (normalized cfg).nodeCount := by
  show 1 ≤ if cfg.nodeCount < 1 then 3 else cfg.nodeCount
  split_ifs <;> omega

/-- **What is recorded about a new cluster.** -/
theorem created_spec (h : createCluster H id cfg = .ok c) : Created H id (normalized cfg) c :=
  created_core h

lemma restoredCount_of_pos (h : 1 ≤ cfg.nodeCount) : restoredCount cfg = cfg.nodeCount.toNat :=
  if_neg fun hand => by omega

/-- A created cluster is in order. -/
lemma Created.bookkept (h : Created H id cfg c) (hcount : 1 ≤ cfg.nodeCount) : Bookkept c := by
  have hnodes := restoredCount_of_pos hcount
  refine ⟨?_, fun x => ?_, ?_, ?_⟩
  · rw [h.nodeIDs]
    exact nodup_firstIDs id _
  · rw [h.nodeIDs, h.live]
  · rw [h.nodeIDs, length_firstIDs, h.config]
    omega
  · rw [h.nodeIDs, h.leader]
    split_ifs
    · exact .inr (nodeID_mem_firstIDs.mpr (by omega))
    · exact .inl rfl

end create

/-! ### Operations -/

/-- The node IDs are among the first ones, as many as there are. -/
def Cluster.Gapless (c : Cluster V) : Prop := c.nodeIDs ⊆ firstIDs c.id c.nodeIDs.length

instance (c : Cluster V) : Decidable c.Gapless :=
  inferInstanceAs (Decidable (∀ _ ∈ _, _))

/-- Nodes join leaderless clusters only and while there is no gap, and the leader stays. -/
def Cluster.Orderly (c : Cluster V) : Op → Prop
  | .addNode => c.config.strategy ≠ .singleLeader ∧ c.config.strategy ≠ .multiLeader ∧
      (c.config.strategy = .leaderless → c.Gapless)
  | .safeAddNode _ _ => c.config.strategy = .leaderless → c.Gapless
  | .removeNode nodeID => c.live nodeID = true → nodeID ≠ c.leaderID

instance (c : Cluster V) : (op : Op) → Decidable (c.Orderly op)
  | .addNode => inferInstanceAs (Decidable (_ ∧ _ ∧ _))
  | .safeAddNode _ _ => inferInstanceAs (Decidable (_ → _))
  | .removeNode _ => inferInstanceAs (Decidable (_ → _))

lemma Cluster.Gapless.newID_notMem (h : c.Gapless) : c.newID ∉ c.nodeIDs := by
  intro hmem
  obtain ⟨i, hi, heq⟩ := mem_firstIDs.mp (h hmem)
  have := nodeID_injective c.id heq
  omega

lemma Cluster.Orderly.newID_notMem {op : Op} (h : c.Orderly op) (hjoins : op.joins = true)
    (hstrategy : c.config.strategy = .leaderless) : c.newID ∉ c.nodeIDs := by
  cases op with
  | addNode => exact (h.2.2 hstrategy).newID_notMem
  | safeAddNode => exact (h hstrategy).newID_notMem
  | removeNode => cases hjoins

/-- A node that joins keeps the books. -/
lemma Bookkept.joined {op : Op} (h : Bookkept c) (hjoined : Joined c c' op)
    (hstrategy : c.config.strategy = .leaderless) (hnew : c.newID ∉ c.nodeIDs) : Bookkept c' := by
  refine ⟨?_, fun id => ?_, ?_, ?_⟩
  · rw [hjoined.nodeIDs, ← concat_eq_append]
    exact h.nodup.concat hnew
  · rw [hjoined.nodeIDs, hjoined.live, mem_append, mem_singleton, h.keys, or_comm]
    simp
  · rw [hjoined.nodeIDs, length_append, length_singleton, hjoined.count]
    have hcount := h.count
    cases op <;> simp only [Cluster.countAfter, hstrategy, if_true] <;> push_cast <;> omega
  · rw [hjoined.nodeIDs, hjoined.leader]
    exact h.leader.imp_right fun hmem => mem_append_left _ hmem

/-- So does one that leaves, unless it leads. -/
lemma Bookkept.left {nodeID : String} (h : Bookkept c) (hleft : Left c c' nodeID)
    (hstays : nodeID ≠ c.leaderID) : Bookkept c' := by
  have hmem : nodeID ∈ c.nodeIDs := (h.keys nodeID).mpr hleft.was
  have hfilter : (c.nodeIDs.filter fun id => id ≠ nodeID) = c.nodeIDs.erase nodeID := by
    rw [h.nodup.erase_eq_filter]
    refine filter_congr fun id _ => ?_
    by_cases hid : id = nodeID <;> simp [hid]
  have hlen : c'.nodeIDs.length + 1 = c.nodeIDs.length := by
    rw [hleft.nodeIDs, hfilter, length_erase_add_one hmem]
  refine ⟨?_, fun id => ?_, ?_, ?_⟩
  · rw [hleft.nodeIDs]
    exact h.nodup.filter _
  · rw [hleft.nodeIDs, hleft.live, mem_filter, h.keys]
    simp [and_comm]
  · rw [hleft.count, h.count]
    split_ifs <;> omega
  · rw [hleft.nodeIDs, hleft.leader]
    refine h.leader.imp_right fun hlead => mem_filter.mpr ⟨hlead, decide_eq_true ?_⟩
    exact fun heq => hstays heq.symm

/-- **Orderly operations keep the records in agreement.** -/
theorem bookkept_step (H : Hashing String String) {op : Op} (horderly : c.Orderly op)
    (h : Bookkept c) : Bookkept (c.step H op) := by
  have hresize := resize_step H c op
  generalize c.step H op = c' at hresize
  cases hresize with
  | refused => exact h
  | joined _ _ hjoins hstrategy hjoined =>
    have hleaderless : c.config.strategy = .leaderless := by
      rcases hstrategy with hstrategy | ⟨rfl, hstrategy | hstrategy⟩
      · exact hstrategy
      · exact absurd hstrategy horderly.1
      · exact absurd hstrategy horderly.2.1
    exact h.joined hjoined hleaderless (horderly.newID_notMem hjoins hleaderless)
  | left nodeID _ hleft => exact h.left hleft (horderly hleft.was)

/-- **Membership bookkeeping**: in a run in which nodes join leaderless clusters only, while the
numbers of the live nodes have no gap, and the leader is not removed, the records agree in every
state and a node that joins gets an id that no live node has. -/
theorem membership_bookkeeping (H : Hashing String String) {id : String} {cfg : ClusterConfig}
    (hc : createCluster H id cfg = .ok c) (ops : List Op)
    (horderly : Along (Cluster.step H) Cluster.Orderly c ops) :
    Bookkept (run (Cluster.step H) c ops) ∧
      ∀ op : Op, (run (Cluster.step H) c ops).Orderly op → op.joins = true →
        (run (Cluster.step H) c ops).config.strategy = .leaderless →
        (run (Cluster.step H) c ops).live (run (Cluster.step H) c ops).newID = false := by
  have hbook : Bookkept (run (Cluster.step H) c ops) := by
    refine run_invariant Bookkept (fun c op hop h => bookkept_step H hop h) horderly ?_
    exact (created_spec hc).bookkept (one_le_normalized cfg)
  refine ⟨hbook, fun op hop hjoins hstrategy => ?_⟩
  rw [← Bool.not_eq_true, ← hbook.keys]
  exact hop.newID_notMem hjoins hstrategy

/-- A cluster of two nodes. -/
private def twoOf (strategy : ReplicationStrategy) : Except String (Cluster ℕ) :=
  createCluster HashRing.fnv "3f2a9c1e-5b7d-4e21-9a60-0d4c8f1b2e33" (.bare strategy 2)

/-- A third node joins, leaves and joins again. -/
theorem membership_bookkeeping_third :
    ∃ c, twoOf .leaderless = .ok c ∧ Bookkept (run (Cluster.step HashRing.fnv) c
      [.addNode, .removeNode "node-3f2a9c1e-3", .safeAddNode (fun _ => []) []]) := by
  have hrun : ∃ c ∈ (twoOf .leaderless).toOption,
      Along (Cluster.step HashRing.fnv) Cluster.Orderly c
        [.addNode, .removeNode "node-3f2a9c1e-3", .safeAddNode (fun _ => []) []] := by
    decide +kernel
  obtain ⟨c, hc, horderly⟩ := hrun
  exact ⟨c, eq_ok_of_mem_toOption hc,
    (membership_bookkeeping HashRing.fnv (eq_ok_of_mem_toOption hc) _ horderly).1⟩

/-- When the first of two nodes is removed, the next node takes the id of the second. Single-leader
clusters do not count a node that joins, and keep a leader that is removed. -/
theorem id_taken_twice :
    (∃ c ∈ (twoOf .leaderless).toOption,
      (run (Cluster.step HashRing.fnv) c [.removeNode "node-3f2a9c1e-1"]).live
          (run (Cluster.step HashRing.fnv) c [.removeNode "node-3f2a9c1e-1"]).newID = true ∧
        (run (Cluster.step HashRing.fnv) c [.removeNode "node-3f2a9c1e-1", .addNode]).nodeIDs =
          ["node-3f2a9c1e-2", "node-3f2a9c1e-2"]) ∧
    (∃ c ∈ (twoOf .singleLeader).toOption,
      (run (Cluster.step HashRing.fnv) c [.addNode]).config.nodeCount = 2 ∧
        (run (Cluster.step HashRing.fnv) c [.addNode]).nodeIDs.length = 3) ∧
    ∃ c ∈ (twoOf .singleLeader).toOption,
      (run (Cluster.step HashRing.fnv) c [.removeNode "node-3f2a9c1e-1"]).leaderID =
          "node-3f2a9c1e-1" ∧
        (run (Cluster.step HashRing.fnv) c [.removeNode "node-3f2a9c1e-1"]).nodeIDs =
          ["node-3f2a9c1e-2"] := by
  decide +kernel

end Replication.Simulation
