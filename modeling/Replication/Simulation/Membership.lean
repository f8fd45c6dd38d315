import Mathlib.Data.String.Basic
import Replication.Leaderless.Node
import Replication.Simulation.AntiEntropy
import Replication.SingleLeader.Leader

/-!
# Simulation · Membership: creating and resizing clusters

`internal/simulation/orchestrator.go` and `membership.go`: what the orchestrator records about a
cluster and what it sets in its nodes. The inner state of nodes of other strategies than leaderless
is not touched by these operations and is left out.

* `addNode`, `removeNode`, `safeAddNode` — the operations, with their errors. The phases of a safe
  reconfiguration are `addMembership`, `reconcileNodes`, `switchQuorum` and `pushRegions`.

The order in which anti-entropy meets the nodes and the keys it exchanges are inputs, since a Go map
is iterated in an order of its own every time.
-/

namespace Replication.Simulation

open Storage Node Leaderless
open HashRing (Hashing)
open SingleLeader (ReplicationMode)
open Conflict (ResolverType)

/-- Source: `node.go` `ReplicationStrategy`. -/
inductive ReplicationStrategy where
  | singleLeader
  | multiLeader
  | leaderless
  | raft
  | unknown (name : String)
  deriving DecidableEq, Repr

/-- The name of a strategy in the configuration. -/
def ReplicationStrategy.name : ReplicationStrategy → String
  | .singleLeader => "single_leader"
  | .multiLeader => "multi_leader"
  | .leaderless => "leaderless"
  | .raft => "raft"
  | .unknown name => name

/-- Empty strings and unset pointers read `none`. Source: `orchestrator.go` `ClusterConfig`. -/
structure ClusterConfig where
  strategy : ReplicationStrategy
  nodeCount : ℤ
  replicationMode : Option ReplicationMode
  /-- The resolver of multi-leader nodes. -/
  conflictResolver : Option ResolverType
  /-- The number of replicas of a key. -/
  quorumN : ℤ
  quorumW : ℤ
  quorumR : ℤ
  regions : ℤ
  /-- The quorum semantics of leaderless writes. -/
  consistencyLevel : Option ConsistencyLevel
  readRepairMode : Option ReadRepairMode
  /-- Whether stand-ins may help to meet a write quorum. -/
  sloppyQuorum : Option Bool
  deriving DecidableEq, Repr

/-- A configuration that leaves everything but the strategy and the number of nodes out. -/
def ClusterConfig.bare (strategy : ReplicationStrategy) (nodeCount : ℤ) : ClusterConfig :=
  ⟨strategy, nodeCount, none, none, 0, 0, 0, 0, none, none, none⟩

variable {V : Type} [Inhabited V] [DecidableEq V]

/-- A node with what the orchestrator sets in it. -/
inductive NodeKind (V : Type) where
  | leader (mode : ReplicationMode)
  | follower (leaderID : String)
  | multiLeader (resolver : ResolverType)
  | leaderless (n : LeaderlessNode String String V)
  | raft (seed : ℤ)

/-- A node of any strategy. -/
structure ClusterNode (V : Type) where
  kind : NodeKind V
  /-- Its peers. Source: `base.go` `peers`. -/
  peers : List String

namespace ClusterNode

variable (n : ClusterNode V)

/-- Source: `base.go` `AddPeer`. -/
def addPeer (nodeID : String) : ClusterNode V :=
  if nodeID ∈ n.peers then n else { n with peers := n.peers ++ [nodeID] }

/-- Source: `base.go` `RemovePeer`. -/
def removePeer (nodeID : String) : ClusterNode V :=
  { n with peers := n.peers.filter fun p => p ≠ nodeID }

/-- Change a leaderless node, and leave others alone. -/
def mapLeaderless (f : LeaderlessNode String String V → LeaderlessNode String String V) :
    ClusterNode V :=
  match n.kind with
  | .leaderless ll => { n with kind := .leaderless (f ll) }
  | _ => n

/-- The leaderless node that it is, if any. -/
def leaderless? : Option (LeaderlessNode String String V) :=
  match n.kind with
  | .leaderless ll => some ll
  | _ => none

end ClusterNode

/-- Source: `orchestrator.go` `Cluster`. -/
structure Cluster (V : Type) where
  id : String
  config : ClusterConfig
  nodes : String → Option (ClusterNode V)
  /-- Their ids, in the order in which they joined. -/
  nodeIDs : List String
  /-- The leader of a single-leader cluster, or empty. -/
  leaderID : String
  nodeRegions : String → Option ℕ

/-! ### Quorums -/

/-- `N`, or the number of nodes if `N` is unset or larger. -/
def replicationFactor (quorumN nodeCount : ℤ) : ℤ :=
  if quorumN ≤ 0 ∨ nodeCount < quorumN then nodeCount else quorumN

/-- `N`, `W` and `R` where unset quorums are majorities. -/
def withMajorities (n w r : ℤ) : QuorumConfig where
  N := n
  W := if w = 0 then n.tdiv 2 + 1 else w
  R := if r = 0 then n.tdiv 2 + 1 else r

/-- The quorum of a configuration. Source: `captheorem.go` `quorumConfigFor`. -/
def quorumConfigFor (cfg : ClusterConfig) : QuorumConfig :=
  let nodeCount := if cfg.nodeCount = 0 then 5 else cfg.nodeCount
  withMajorities (replicationFactor cfg.quorumN nodeCount) cfg.quorumW cfg.quorumR

/-! ### Node ids -/

/-- The first eight characters of a cluster id, a UUID. -/
def shortID (clusterID : String) : String := String.ofList (clusterID.toList.take 8)

/-- The id of the `k`-th node: `node-%s-%d`. -/
def nodeID (clusterID : String) (k : ℕ) : String :=
  "node-" ++ shortID clusterID ++ "-" ++ toString k

/-- The first node IDs of a cluster. -/
def firstIDs (clusterID : String) (count : ℕ) : List String :=
  (List.range count).map fun i => nodeID clusterID (i + 1)

lemma nodeID_injective (clusterID : String) : Function.Injective (nodeID clusterID) := by
  intro k l h
  have hdigits : Nat.toDigits 10 k = Nat.toDigits 10 l :=
    String.ofList_injective ((String.append_right_inj _).mp h)
  calc
    k = Nat.ofDigitChars 10 (Nat.toDigits 10 k) 0 := Nat.ofDigitChars_ten_toDigits.symm
    _ = Nat.ofDigitChars 10 (Nat.toDigits 10 l) 0 := by rw [hdigits]
    _ = l := Nat.ofDigitChars_ten_toDigits

/-! ### Creation -/

namespace Cluster

/-- A cluster without nodes. -/
def empty (id : String) (cfg : ClusterConfig) : Cluster V where
  id := id
  config := cfg
  nodes _ := none
  nodeIDs := []
  leaderID := ""
  nodeRegions _ := none

/-- Add a node to the node map and to the id list. -/
def insert (c : Cluster V) (id : String) (n : ClusterNode V) : Cluster V :=
  { c with nodes := Function.update c.nodes id (some n), nodeIDs := c.nodeIDs ++ [id] }

/-- Change every node. -/
def mapNodes (c : Cluster V) (f : ClusterNode V → ClusterNode V) : Cluster V :=
  { c with nodes := fun id => (c.nodes id).map f }

end Cluster

/-- A new node that is told of its peers. -/
def withPeers (kind : NodeKind V) (peers : List String) : ClusterNode V :=
  peers.foldl ClusterNode.addPeer ⟨kind, []⟩

/-- A leader and followers that it replicates to. Without nodes there is no first id. Source:
`orchestrator.go` `createSingleLeaderCluster`. -/
def createSingleLeaderCluster (cluster : Cluster V) (cfg : ClusterConfig) :
    Except String (Cluster V) :=
  match firstIDs cluster.id cfg.nodeCount.toNat with
  | [] => .error "runtime error: index out of range [0] with length 0"
  | leaderID :: followers =>
    let leader := withPeers (.leader (cfg.replicationMode.getD .async)) followers
    .ok (followers.foldl (fun c id => c.insert id ⟨.follower leaderID, []⟩)
      ({ cluster with leaderID := leaderID }.insert leaderID leader))

/-- Source: `orchestrator.go` `createMultiLeaderCluster`. -/
def createMultiLeaderCluster (cluster : Cluster V) (cfg : ClusterConfig) : Cluster V :=
  let nodeIDs := firstIDs cluster.id cfg.nodeCount.toNat
  let kind := NodeKind.multiLeader (cfg.conflictResolver.getD .lww)
  nodeIDs.foldl (fun c id => c.insert id (withPeers kind (nodeIDs.filter fun p => p ≠ id))) cluster

/-- Source: `orchestrator.go` `createRaftCluster`. -/
def createRaftCluster (cluster : Cluster V) (cfg : ClusterConfig) : Cluster V :=
  let nodeIDs := firstIDs cluster.id cfg.nodeCount.toNat
  nodeIDs.foldl (fun c id =>
    c.insert id (withPeers (.raft ((nodeIDs.idxOf id + 1) * 7919))
      (nodeIDs.filter fun p => p ≠ id)))
    cluster

/-- A leaderless node with the settings of the configuration. -/
def configuredNode (H : Hashing String String) (cfg : ClusterConfig) (id : String)
    (q : QuorumConfig) (nodeIDs : List String) : LeaderlessNode String String V :=
  let n := (LeaderlessNode.new H id q).setAllNodes H nodeIDs
  { n with
    consistencyLevel := cfg.consistencyLevel.getD n.consistencyLevel
    repairMode := cfg.readRepairMode.getD n.repairMode
    sloppy := cfg.sloppyQuorum.getD n.sloppy }

/-- Source: `orchestrator.go` `createLeaderlessCluster`. -/
def createLeaderlessCluster (H : Hashing String String) (cluster : Cluster V)
    (cfg : ClusterConfig) : Cluster V :=
  let nodeCount := if cfg.nodeCount = 0 then 5 else cfg.nodeCount
  let qConfig := withMajorities (replicationFactor cfg.quorumN nodeCount) cfg.quorumW cfg.quorumR
  let nodeIDs := firstIDs cluster.id nodeCount.toNat
  nodeIDs.foldl (fun c id =>
    c.insert id ⟨.leaderless (configuredNode H cfg id qConfig nodeIDs), []⟩) cluster

namespace Cluster

/-- Tell leaderless nodes the regions. Source: `observability.go` `pushRegions`. -/
def pushRegions (c : Cluster V) : Cluster V :=
  let names id := match c.nodeRegions id with
    | some r => "region-" ++ toString r
    | none => ""
  c.mapNodes fun n => n.mapLeaderless fun ll => ll.setRegions names

/-- Spread the nodes over the regions. Latencies of links are left out. Source: `observability.go`
`assignRegions`. -/
def assignRegions (c : Cluster V) (cfg : ClusterConfig) : Cluster V :=
  let region id := if cfg.regions ≤ 1 then 0 else c.nodeIDs.idxOf id % cfg.regions.toNat
  pushRegions { c with nodeRegions := fun id => if id ∈ c.nodeIDs then some (region id) else none }

end Cluster

/-- Source: `orchestrator.go` `createClusterCore`. -/
def createClusterCore (H : Hashing String String) (id : String) (cfg : ClusterConfig) :
    Except String (Cluster V) :=
  let cluster := Cluster.empty id cfg
  let created := match cfg.strategy with
    | .singleLeader => createSingleLeaderCluster cluster cfg
    | .multiLeader => .ok (createMultiLeaderCluster cluster cfg)
    | .leaderless => .ok (createLeaderlessCluster H cluster cfg)
    | .raft => .ok (createRaftCluster cluster cfg)
    | .unknown name => .error ("unknown strategy: " ++ name)
  created.map fun c => c.assignRegions cfg

/-- The limit on the number of clusters is left out. Source: `orchestrator.go` `CreateCluster`. -/
def createCluster (H : Hashing String String) (id : String) (cfg : ClusterConfig) :
    Except String (Cluster V) :=
  createClusterCore H id
    { cfg with
      nodeCount := if cfg.nodeCount < 1 then 3 else cfg.nodeCount
      replicationMode := some (cfg.replicationMode.getD .async) }

/-! ### Resizing -/

namespace Cluster

variable (c : Cluster V)

/-- The id of the next node: `len(NodeIDs)+1` in the cluster's numbering. -/
def newID : String := nodeID c.id (c.nodeIDs.length + 1)

/-- Tell every leaderless node of the members. -/
def setMembership (H : Hashing String String) (ids : List String) : Cluster V :=
  c.mapNodes fun n => n.mapLeaderless fun ll => ll.setAllNodes H ids

/-- Give every leaderless node a quorum. -/
def setQuorum (q : QuorumConfig) : Cluster V :=
  c.mapNodes fun n => n.mapLeaderless fun ll => ll.updateQuorum q

/-- The quorum for one node more. -/
def grownQuorum : QuorumConfig :=
  withMajorities (c.config.nodeCount + 1) c.config.quorumW c.config.quorumR

/-- A follower joins, and the leader replicates to it. -/
def addFollower : Cluster V :=
  let c' := c.insert c.newID ⟨.follower c.leaderID, []⟩
  match c'.nodes c.leaderID with
  | none => c'
  | some leader =>
    { c' with nodes := Function.update c'.nodes c.leaderID (some (leader.addPeer c.newID)) }

/-- A further leader, which is told of the others as they are of it. -/
def addLeader : Cluster V :=
  let joined : Cluster V :=
    { c with nodes := fun id =>
        if id ∈ c.nodeIDs then (c.nodes id).map fun n => n.addPeer c.newID else c.nodes id }
  joined.insert c.newID (withPeers (.multiLeader .lww) c.nodeIDs)

/-- A leaderless node joins, and all nodes learn the membership and the quorum. -/
def addReplica (H : Hashing String String) : Cluster V :=
  let ids := c.nodeIDs ++ [c.newID]
  let n := (LeaderlessNode.new H c.newID c.grownQuorum).setAllNodes H ids
  let c' := ((c.setMembership H ids).setQuorum c.grownQuorum).insert c.newID ⟨.leaderless n, []⟩
  { c' with
    config := { c'.config with
      nodeCount := c'.config.nodeCount + 1
      quorumW := c.grownQuorum.W
      quorumR := c.grownQuorum.R } }

/-- Source: `orchestrator.go` `AddNode`. -/
def addNode (H : Hashing String String) : Except String (Cluster V) :=
  match c.config.strategy with
  | .singleLeader => .ok c.addFollower
  | .multiLeader => .ok c.addLeader
  | .leaderless => .ok (c.addReplica H)
  | strategy => .error ("unsupported strategy: " ++ strategy.name)

/-- Source: `orchestrator.go` `RemoveNode`. -/
def removeNode (nodeID : String) : Except String (Cluster V) :=
  match c.nodes nodeID with
  | none => .error ("node " ++ nodeID ++ " not found in cluster " ++ c.id)
  | some _ =>
    let c' := { c with
      nodes := Function.update c.nodes nodeID none
      nodeIDs := c.nodeIDs.filter fun id => id ≠ nodeID
      config := { c.config with
        nodeCount := if 0 < c.config.nodeCount then c.config.nodeCount - 1
          else c.config.nodeCount } }
    .ok (c'.mapNodes fun n => n.removePeer nodeID)

/-! ### Safe reconfiguration -/

/-- The quorum that is kept while the membership grows. -/
def oldQuorum : QuorumConfig :=
  withMajorities (replicationFactor c.config.quorumN c.nodeIDs.length) c.config.quorumW
    c.config.quorumR

/-- Phase 1: the node joins every ring under the old quorum. -/
def addMembership (H : Hashing String String) : Cluster V :=
  let ids := c.nodeIDs ++ [c.newID]
  let n := (LeaderlessNode.new H c.newID c.oldQuorum).setAllNodes H ids
  (c.setMembership H ids).insert c.newID ⟨.leaderless n, []⟩

/-- The leaderless node of an ID. -/
def replica (id : String) : Option (LeaderlessNode String String V) :=
  (c.nodes id).bind ClusterNode.leaderless?

/-- The store of a node; that of a node that is not there is empty. -/
def stores (id : String) : Store String String V :=
  match c.replica id with
  | some ll => ll.store
  | none => .new

/-- The nodes that are online. -/
def online : List String :=
  c.nodeIDs.dedup.filter fun id =>
    match c.replica id with
    | some ll => ll.state = .online
    | none => false

/-- Phase 2: anti-entropy over the leaderless nodes. -/
def reconcileNodes (order : String → List String) (divergent : List String) : Cluster V :=
  let stores := runAntiEntropy c.stores c.online order divergent
  { c with nodes := fun id =>
      (c.nodes id).map fun n => n.mapLeaderless fun ll => { ll with store := stores id } }

/-- Phase 3: all nodes switch to majorities of the new membership, and the configuration records
it. -/
def switchQuorum : Cluster V :=
  let q := withMajorities c.nodeIDs.length 0 0
  let c' := c.setQuorum q
  { c' with
    config := { c'.config with
      nodeCount := q.N, quorumN := q.N, quorumW := q.W, quorumR := q.R } }

end Cluster

/-- Source: `membership.go` `ReconfigureReport`. -/
structure ReconfigureReport where
  clusterID : String
  addedNode : String
  oldQuorum : QuorumConfig
  newQuorum : QuorumConfig
  /-- Whether `W + R > N` at both ends. -/
  overlapHeld : Bool
  /-- The number of copies that anti-entropy repaired. -/
  reconciled : ℕ
  phases : List String
  deriving DecidableEq, Repr

namespace Cluster

variable (c : Cluster V)

/-- Grow a leaderless cluster in three phases. Source: `membership.go` `SafeAddNode`. -/
def safeAddNode (H : Hashing String String) (order : String → List String)
    (divergent : List String) : Except String (Cluster V × ReconfigureReport) :=
  if c.config.strategy ≠ .leaderless then
    .error "safe reconfiguration is only supported for leaderless clusters"
  else
    let c₁ := c.addMembership H
    let c₂ := c₁.reconcileNodes order divergent
    let reconciled := reconciledCount c₁.stores c₁.online order divergent
    let c₃ := c₂.switchQuorum
    let old := c.oldQuorum
    let new := withMajorities c₂.nodeIDs.length 0 0
    .ok (c₃.pushRegions,
      { clusterID := c.id
        addedNode := c.newID
        oldQuorum := old
        newQuorum := new
        overlapHeld := old.N < old.W + old.R ∧ new.N < new.W + new.R
        reconciled := reconciled
        phases :=
          ["phase 1: node added to the ring; old quorum kept uniformly (no mixed config)",
            "phase 2: anti-entropy replicated " ++ toString reconciled ++
              " key(s) onto the new node",
            "phase 3: atomic switch to N=" ++ toString new.N ++ " W=" ++ toString new.W ++ " R=" ++
              toString new.R ++ " (W+R>N overlap preserved)"] })

end Cluster

/-- An operation on the membership of a cluster. -/
inductive Op where
  | addNode
  | removeNode (nodeID : String)
  | safeAddNode (order : String → List String) (divergent : List String)

/-- One operation; a refused one changes nothing. -/
def Cluster.step (H : Hashing String String) (c : Cluster V) (op : Op) : Cluster V :=
  let result := match op with
    | .addNode => c.addNode H
    | .removeNode nodeID => c.removeNode nodeID
    | .safeAddNode order divergent => (c.safeAddNode H order divergent).map Prod.fst
  match result with
  | .ok c' => c'
  | .error _ => c

end Replication.Simulation
