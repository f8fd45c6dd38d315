import Mathlib.Data.Finset.Basic
import Mathlib.Logic.Function.Basic

/-!
# Storage · Entry: log entries, stored entries and vector clocks

The records of `internal/storage/entry.go`. Node ids, keys and values are type variables: the
code uses strings and byte slices and only compares them for equality here.
-/

namespace Replication.Storage

/-- The operation of a log entry. Source: `entry.go` `OpType`. -/
inductive OpType where
  | set
  | delete
  deriving DecidableEq, Repr

/-- A vector clock: the keys present in the map and the counter of each, `0` for a missing key.
Source: `entry.go` `VectorClock`. -/
@[ext] structure VectorClock (I : Type) where
  /-- The node ids with an entry in the map. -/
  keys : Finset I
  /-- `vc[nodeID]`, with Go's zero value off the map. -/
  count : I → ℕ
  count_of_notMem : ∀ i, i ∉ keys → count i = 0

namespace VectorClock

variable {I : Type}

/-- The empty clock. A `nil` map reads the same. Source: `entry.go` `NewVectorClock`. -/
def empty : VectorClock I where
  keys := ∅
  count _ := 0
  count_of_notMem _ _ := rfl

/-- The one-entry literal `VectorClock{id: c}`. -/
def single [DecidableEq I] (id : I) (c : ℕ) : VectorClock I where
  keys := {id}
  count i := if i = id then c else 0
  count_of_notMem i hi := by
    rw [Finset.mem_singleton] at hi
    exact if_neg hi

end VectorClock

/-- A replicated log entry. Source: `entry.go` `LogEntry`. -/
structure LogEntry (I K V : Type) where
  /-- The entry's absolute log index, from 1. -/
  index : ℕ
  /-- The Raft term of the leader that created it. -/
  term : ℕ
  key : K
  value : V
  op : OpType
  timestamp : ℤ
  /-- The node that accepted the client call. -/
  originID : I
  vclock : VectorClock I

/-- A stored entry. Source: `entry.go` `KVEntry`. -/
structure KVEntry (I K V : Type) where
  key : K
  value : V
  vclock : VectorClock I
  timestamp : ℤ
  /-- The node that accepted the client call. -/
  nodeID : I
  tombstone : Bool
  /-- The store's write counter when the entry was stored. -/
  version : ℕ

variable {I K V : Type}

/-- The stored entry that applying a log entry produces: the same literal in
`raft.go` `applyCommitted` and in `follower.go` `applyOne`. -/
def LogEntry.toKV (e : LogEntry I K V) : KVEntry I K V where
  key := e.key
  value := e.value
  vclock := e.vclock
  timestamp := e.timestamp
  nodeID := e.originID
  tombstone := e.op = .delete
  version := e.index

end Replication.Storage
