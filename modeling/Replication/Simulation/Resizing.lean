import Replication.Simulation.Membership

/-!
# Simulation · Resizing: what operations do to a cluster

* `Cluster.live` — the keys of the node map, and how operations change them.
* `Resize`, `resize_step` — what one operation does to the ids, the recorded node count, the node
  map and the leader.
-/

set_option linter.unusedSectionVars false

namespace Replication.Simulation

open Storage Node Leaderless Library Function
open HashRing (Hashing)

variable {V : Type} [Inhabited V] [DecidableEq V]

namespace Cluster

variable {c c' : Cluster V} {id x : String} {n : ClusterNode V}

/-! ### Live nodes -/

/-- Whether there is a node of this ID. -/
def live (c : Cluster V) (id : String) : Bool := (c.nodes id).isSome

@[simp] lemma live_mapNodes (f : ClusterNode V → ClusterNode V) :
    (c.mapNodes f).live id = c.live id :=
  Option.isSome_map

@[simp] lemma nodeIDs_insert : (c.insert x n).nodeIDs = c.nodeIDs ++ [x] := rfl

lemma nodes_insert : (c.insert x n).nodes id = if id = x then some n else c.nodes id := by
  show update c.nodes x (some n) id = _
  rw [update_apply]

@[simp] lemma live_insert : (c.insert x n).live id = (id = x ∨ c.live id : Bool) := by
  unfold live
  rw [nodes_insert]
  by_cases h : id = x <;> simp [h]

/-! ### Adding nodes one after the other -/

section foldl

variable (f : String → ClusterNode V)

lemma nodes_foldl_insert (ids : List String) (c : Cluster V) (id : String) :
    (ids.foldl (fun c x => c.insert x (f x)) c).nodes id =
      if id ∈ ids then some (f id) else c.nodes id := by
  induction ids generalizing c with
  | nil => simp
  | cons x ids ih =>
    rw [List.foldl_cons, ih, nodes_insert]
    by_cases hid : id ∈ ids
    · simp [hid]
    by_cases hx : id = x
    · subst hx
      simp [hid]
    · simp [hid, hx]

lemma foldl_insert (ids : List String) (c : Cluster V) :
    (ids.foldl (fun c x => c.insert x (f x)) c).nodeIDs = c.nodeIDs ++ ids ∧
      (ids.foldl (fun c x => c.insert x (f x)) c).id = c.id ∧
      (ids.foldl (fun c x => c.insert x (f x)) c).config = c.config ∧
      (ids.foldl (fun c x => c.insert x (f x)) c).leaderID = c.leaderID := by
  induction ids generalizing c with
  | nil => simp
  | cons x ids ih =>
    rw [List.foldl_cons]
    obtain ⟨hids, hid, hconfig, hleader⟩ := ih (c.insert x (f x))
    refine ⟨?_, hid, hconfig, hleader⟩
    rw [hids, nodeIDs_insert, List.append_assoc, List.singleton_append]

end foldl

/-! ### Properties of every node -/

/-- Every live node is leaderless and has a property. -/
def Each (P : LeaderlessNode String String V → Prop) (c : Cluster V) : Prop :=
  ∀ id n, c.nodes id = some n → ∃ ll, n.kind = .leaderless ll ∧ P ll

variable {P Q : LeaderlessNode String String V → Prop}

lemma Each.map {f : String → LeaderlessNode String String V → LeaderlessNode String String V}
    (h : c.Each P) (hf : ∀ id ll, P ll → Q (f id ll))
    (hnodes : ∀ id, c'.nodes id = (c.nodes id).map fun n => n.mapLeaderless (f id)) :
    c'.Each Q := by
  intro id n hn
  rw [hnodes, Option.map_eq_some_iff] at hn
  obtain ⟨m, hm, rfl⟩ := hn
  obtain ⟨ll, hkind, hP⟩ := h id m hm
  refine ⟨f id ll, ?_, hf id ll hP⟩
  unfold ClusterNode.mapLeaderless
  rw [hkind]

lemma Each.mapLeaderless {f : LeaderlessNode String String V → LeaderlessNode String String V}
    (h : c.Each P) (hf : ∀ ll, P ll → Q (f ll)) : (c.mapNodes fun n => n.mapLeaderless f).Each Q :=
  h.map (fun _ => hf) fun _ => rfl

/-- A property that follows from another one. -/
lemma Each.imp (h : c.Each P) (himp : ∀ ll, P ll → Q ll) : c.Each Q := by
  intro id n hn
  obtain ⟨ll, hkind, hP⟩ := h id n hn
  exact ⟨ll, hkind, himp ll hP⟩

lemma Each.insert (h : c.Each P) {ll : LeaderlessNode String String V} (hll : P ll)
    (peers : List String) : (c.insert x ⟨.leaderless ll, peers⟩).Each P := by
  intro id n hn
  rw [nodes_insert] at hn
  split_ifs at hn
  · cases hn
    exact ⟨ll, rfl, hll⟩
  · exact h id n hn

end Cluster

/-! ### Operations -/

/-- Whether the call adds a node. -/
def Op.joins : Op → Bool
  | .addNode => true
  | .safeAddNode _ _ => true
  | .removeNode _ => false

/-- The node count that is recorded when a node joins: only leaderless clusters keep it up to date,
and a safe reconfiguration counts again. -/
def Cluster.countAfter (c : Cluster V) : Op → ℤ
  | .safeAddNode _ _ => c.nodeIDs.length + 1
  | _ => if c.config.strategy = .leaderless then c.config.nodeCount + 1 else c.config.nodeCount

/-- What no operation on the membership changes. -/
structure Cluster.Same (c c' : Cluster V) : Prop where
  id : c'.id = c.id
  strategy : c'.config.strategy = c.config.strategy
  leader : c'.leaderID = c.leaderID

/-- A node has joined. -/
structure Joined (c c' : Cluster V) (op : Op) : Prop extends c.Same c' where
  nodeIDs : c'.nodeIDs = c.nodeIDs ++ [c.newID]
  live : ∀ id, c'.live id = (id = c.newID ∨ c.live id : Bool)
  count : c'.config.nodeCount = c.countAfter op

/-- A node has left, and the others are as they were. -/
structure Left (c c' : Cluster V) (nodeID : String) : Prop extends c.Same c' where
  was : c.live nodeID = true
  nodeIDs : c'.nodeIDs = c.nodeIDs.filter fun id => id ≠ nodeID
  live : ∀ id, c'.live id = (id ≠ nodeID ∧ c.live id : Bool)
  config : c'.config = { c.config with
    nodeCount := if 0 < c.config.nodeCount then c.config.nodeCount - 1 else c.config.nodeCount }
  each : ∀ P, c.Each P → c'.Each P

/-- What an operation does to the bookkeeping of a cluster. -/
inductive Resize (c : Cluster V) : Op → Cluster V → Prop
  | refused (op : Op) (hjoins : op.joins = true → c.config.strategy ≠ .leaderless)
      (hadd : op = .addNode →
        c.config.strategy ≠ .singleLeader ∧ c.config.strategy ≠ .multiLeader)
      (hremove : ∀ nodeID, op = .removeNode nodeID → c.live nodeID = false) : Resize c op c
  | joined (op : Op) (c' : Cluster V) (hop : op.joins = true)
      (hstrategy : c.config.strategy = .leaderless ∨
        op = .addNode ∧ (c.config.strategy = .singleLeader ∨ c.config.strategy = .multiLeader))
      (h : Joined c c' op) : Resize c op c'
  | left (nodeID : String) (c' : Cluster V) (h : Left c c' nodeID) :
      Resize c (.removeNode nodeID) c'

section operations

variable {c : Cluster V} (H : Hashing String String)

lemma joined_addFollower (hstrategy : c.config.strategy = .singleLeader) :
    Joined c c.addFollower .addNode := by
  have hcount : c.countAfter .addNode = c.config.nodeCount := by
    simp only [Cluster.countAfter, hstrategy, reduceCtorEq, if_false]
  dsimp only [Cluster.addFollower]
  split
  · exact ⟨⟨rfl, rfl, rfl⟩, rfl, fun id => Cluster.live_insert, hcount.symm⟩
  case h_2 leader hleader =>
    refine ⟨⟨rfl, rfl, rfl⟩, rfl, fun id => ?_, hcount.symm⟩
    rw [← Cluster.live_insert (n := ⟨.follower c.leaderID, []⟩)]
    dsimp only [Cluster.live]
    rw [update_apply]
    split_ifs with hid
    · rw [hid, hleader]
      rfl
    · rfl

lemma joined_addLeader (hstrategy : c.config.strategy = .multiLeader) :
    Joined c c.addLeader .addNode := by
  have hcount : c.countAfter .addNode = c.config.nodeCount := by
    simp only [Cluster.countAfter, hstrategy, reduceCtorEq, if_false]
  refine ⟨⟨rfl, rfl, rfl⟩, rfl, fun id => ?_, hcount.symm⟩
  rw [Cluster.addLeader, Cluster.live_insert]
  congr 2
  dsimp only [Cluster.live]
  split_ifs
  · rw [Option.isSome_map]
  · rfl

lemma joined_addReplica (hstrategy : c.config.strategy = .leaderless) :
    Joined c (c.addReplica H) .addNode := by
  have hcount : c.countAfter .addNode = c.config.nodeCount + 1 := by
    simp only [Cluster.countAfter, hstrategy, if_true]
  refine ⟨⟨rfl, rfl, rfl⟩, rfl, fun id => ?_, hcount.symm⟩
  show ((Cluster.setQuorum _ _).insert _ _).live id = _
  rw [Cluster.live_insert, Cluster.setQuorum, Cluster.live_mapNodes, Cluster.setMembership,
    Cluster.live_mapNodes]

lemma joined_safeAddNode (order : String → List String) (divergent : List String) :
    Joined c (((c.addMembership H).reconcileNodes order divergent).switchQuorum.pushRegions)
      (.safeAddNode order divergent) := by
  refine ⟨⟨rfl, rfl, rfl⟩, rfl, fun id => ?_, ?_⟩
  · have hreconcile : ((c.addMembership H).reconcileNodes order divergent).live id =
        (c.addMembership H).live id := Option.isSome_map
    rw [Cluster.pushRegions, Cluster.live_mapNodes]
    show (Cluster.setQuorum _ _).live id = _
    rw [Cluster.setQuorum, Cluster.live_mapNodes, hreconcile, Cluster.addMembership,
      Cluster.live_insert, Cluster.setMembership, Cluster.live_mapNodes]
  · show ((c.nodeIDs ++ [c.newID]).length : ℤ) = _
    rw [List.length_append, List.length_singleton]
    exact Nat.cast_succ _

/-- What a removal leaves. -/
lemma left_removeNode {nodeID : String} {c' : Cluster V} (h : c.removeNode nodeID = .ok c') :
    Left c c' nodeID := by
  unfold Cluster.removeNode at h
  split at h
  · cases h
  case h_2 n hn =>
    cases h
    refine ⟨⟨rfl, rfl, rfl⟩, ?_, rfl, fun id => ?_, rfl, fun P h id m hm => ?_⟩
    · rw [Cluster.live, hn]
      rfl
    · rw [Cluster.live_mapNodes]
      dsimp only [Cluster.live]
      rw [update_apply]
      by_cases hid : id = nodeID <;> simp [hid]
    · obtain ⟨m', hm', rfl⟩ := Option.map_eq_some_iff.mp hm
      dsimp only at hm'
      rw [update_apply] at hm'
      split_ifs at hm'
      exact h id m' hm'

lemma Left.count {nodeID : String} {c' : Cluster V} (h : Left c c' nodeID) : c'.config.nodeCount =
    if 0 < c.config.nodeCount then c.config.nodeCount - 1 else c.config.nodeCount := by
  rw [h.config]

/-- **Every operation is a resize or is refused.** -/
theorem resize_step (c : Cluster V) (op : Op) : Resize c op (c.step H op) := by
  unfold Cluster.step
  cases op with
  | addNode =>
    dsimp only
    unfold Cluster.addNode
    cases hstrategy : c.config.strategy with
    | singleLeader =>
      exact .joined _ _ rfl (.inr ⟨rfl, .inl hstrategy⟩) (joined_addFollower hstrategy)
    | multiLeader =>
      exact .joined _ _ rfl (.inr ⟨rfl, .inr hstrategy⟩) (joined_addLeader hstrategy)
    | leaderless => exact .joined _ _ rfl (.inl hstrategy) (joined_addReplica H hstrategy)
    | raft | unknown => exact .refused _ (by simp [hstrategy]) (by simp [hstrategy]) nofun
  | removeNode nodeID =>
    dsimp only
    cases h : c.removeNode nodeID with
    | ok c' => exact .left nodeID c' (left_removeNode h)
    | error e =>
      refine .refused _ (fun hjoins => nomatch hjoins) nofun ?_
      rintro x ⟨⟩
      unfold Cluster.removeNode at h
      split at h
      case h_1 hnone => rw [Cluster.live, hnone, Option.isSome_none]
      · cases h
  | safeAddNode order divergent =>
    dsimp only
    unfold Cluster.safeAddNode
    by_cases hstrategy : c.config.strategy = .leaderless
    · rw [if_neg fun h => h hstrategy]
      exact .joined _ _ rfl (.inl hstrategy) (joined_safeAddNode H order divergent)
    · rw [if_pos hstrategy]
      exact .refused _ (fun _ => hstrategy) nofun nofun

end operations

end Replication.Simulation
