import Mathlib.Data.List.FinRange

/-!
# Node · Base: what every node has

The enumerations of `internal/node/node.go` and the pause check of `base.go`.
-/

namespace Replication.Node

/-- The role a node reports. Source: `node.go` `NodeRole`. -/
inductive NodeRole where
  | leader
  | follower
  /-- `RoleReplica`, for leaderless nodes. -/
  | replica
  /-- `RolePrimary`, for multi-leader nodes. -/
  | primary
  deriving DecidableEq, Repr

/-- The life-cycle state of a node. Source: `node.go` `NodeState`. -/
inductive NodeState where
  | online
  | offline
  | paused
  deriving DecidableEq, Repr

/-- A paused or stopped node handles nothing. Source: `base.go` `isPaused`. -/
def NodeState.isPaused (s : NodeState) : Bool := s = .paused ∨ s = .offline

end Replication.Node
