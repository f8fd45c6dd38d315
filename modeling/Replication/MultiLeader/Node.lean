import Replication.Clock.HLC
import Replication.Conflict.Resolver
import Replication.Node.Base

/-!
# Multi leader · Node: local writes and remote applies

`internal/node/multileader.go`. Every node takes writes; a remote version is compared with the local
one by vector clocks, and concurrent versions go to the resolver. Write, delete and remote apply
each hold `applyMu` through their read-modify-write of the store, so one action is one call.

* `MultiLeaderNode.write`, `delete`, `receiveRemoteWrite`, `resolveConflict` — the code.

Metrics and events are left out.
-/

set_option linter.unusedSectionVars false

namespace Replication.MultiLeader

open Storage Conflict Node Clock

/-- A node that takes writes. Source: `multileader.go` `MultiLeaderNode`. -/
structure MultiLeaderNode (I K V : Type) where
  id : I
  state : NodeState
  store : Store I K V
  hlc : HLC
  resolver : Resolver
  conflicts : List (Conflict I K V)
  resolutions : List (Resolution I K V)
  /-- Conflicts that wait for a manual resolution, by key. -/
  pending : K → Option (Conflict I K V)

variable {I K σ : Type} [LinearOrder I] [DecidableEq K] [LinearOrder σ] [Inhabited σ]

namespace MultiLeaderNode

variable (n : MultiLeaderNode I K (Value σ))

/-- Source: `multileader.go` `NewMultiLeaderNode`. -/
def new (id : I) (resolver : Resolver) : MultiLeaderNode I K (Value σ) where
  id := id
  state := .online
  store := .new
  hlc := .new
  resolver := resolver
  conflicts := []
  resolutions := []
  pending _ := none

/-- The clock of the next local write to a key. -/
def nextClock (key : K) : VectorClock I :=
  ((n.store.getRaw key).elim .empty KVEntry.vclock).increment n.id

/-- Apply a local operation: stamp it, advance the clock of the key and store the entry. -/
def put (key : K) (value : Value σ) (tombstone : Bool) (wallNanos : ℤ) :
    MultiLeaderNode I K (Value σ) × KVEntry I K (Value σ) :=
  let kvEntry : KVEntry I K (Value σ) :=
    { key := key, value := value, vclock := n.nextClock key, timestamp := (n.hlc.now wallNanos).2,
      nodeID := n.id, tombstone := tombstone, version := 0 }
  ({ n with hlc := (n.hlc.now wallNanos).1, store := n.store.set kvEntry }, kvEntry)

/-- A client write, and the entry to broadcast unless it is refused. Source: `multileader.go`
`Write`. -/
def write (key : K) (value : Value σ) (wallNanos : ℤ) :
    MultiLeaderNode I K (Value σ) × Option (KVEntry I K (Value σ)) :=
  if n.state.isPaused then (n, none)
  else ((n.put key value false wallNanos).1, some (n.put key value false wallNanos).2)

/-- A client delete: a tombstone without a value. Source: `multileader.go` `Delete`. -/
def delete (key : K) (wallNanos : ℤ) :
    MultiLeaderNode I K (Value σ) × Option (KVEntry I K (Value σ)) :=
  if n.state.isPaused then (n, none)
  else ((n.put key default true wallNanos).1, some (n.put key default true wallNanos).2)

/-- A client read. Source: `multileader.go` `Read`. -/
def read (key : K) : Option (KVEntry I K (Value σ)) :=
  if n.state.isPaused then none else n.store.get key

/-- The winner of a conflict, under a clock that dominates both versions. -/
def resolvedEntry (c : Conflict I K (Value σ)) : KVEntry I K (Value σ) :=
  { (n.resolver.resolve c).winner with
    vclock := (c.localEntry.vclock.merge c.remoteEntry.vclock).merge
      (n.resolver.resolve c).winner.vclock }

/-- Record a conflict and its resolution, and store the winner. -/
def resolveAndStore (c : Conflict I K (Value σ)) : MultiLeaderNode I K (Value σ) :=
  { n with
    conflicts := n.conflicts ++ [c]
    resolutions := n.resolutions ++ [n.resolver.resolve c]
    store := n.store.set (n.resolvedEntry c) }

/-- Handle a version of a key that another node sent. Source: `multileader.go`
`receiveRemoteWrite`. -/
def receiveRemoteWrite (remote : KVEntry I K (Value σ)) (wallNanos : ℤ) :
    MultiLeaderNode I K (Value σ) :=
  let n := { n with hlc := (n.hlc.update wallNanos remote.timestamp).1 }
  match n.store.getRaw remote.key with
  | none => { n with store := n.store.set remote }
  | some loc =>
    if remote.vclock.equal loc.vclock then n
    else if remote.vclock.happensBefore loc.vclock then n
    else if loc.vclock.happensBefore remote.vclock then
      { n with
        store := n.store.set remote, pending := Function.update n.pending remote.key none }
    else if n.resolver.type = .manual ∧ (n.pending remote.key).isSome = true then n
    else if n.resolver.type = .manual then
      { n with
        conflicts := n.conflicts ++ [⟨remote.key, loc, remote, n.id⟩]
        pending := Function.update n.pending remote.key (some ⟨remote.key, loc, remote, n.id⟩) }
    else n.resolveAndStore ⟨remote.key, loc, remote, n.id⟩

/-- Source: `multileader.go` `HandleMessage`. -/
def handleMessage (remote : KVEntry I K (Value σ)) (wallNanos : ℤ) :
    MultiLeaderNode I K (Value σ) :=
  if n.state.isPaused then n else n.receiveRemoteWrite remote wallNanos

/-- Apply a choice for a parked conflict, the remote version if `remote` is set; the resolved entry
is broadcast. Source: `multileader.go` `ResolveConflict`. -/
def resolveConflict (key : K) (remote : Bool) (wallNanos : ℤ) :
    MultiLeaderNode I K (Value σ) × Option (KVEntry I K (Value σ)) :=
  match n.pending key with
  | none => (n, none)
  | some c =>
    let winner := if remote then c.remoteEntry else c.localEntry
    let resolved : KVEntry I K (Value σ) :=
      { winner with
        vclock := (c.localEntry.vclock.merge c.remoteEntry.vclock).increment n.id
        timestamp := (n.hlc.now wallNanos).2
        nodeID := n.id }
    ({ n with
        hlc := (n.hlc.now wallNanos).1
        pending := Function.update n.pending key none
        store := n.store.set resolved
        resolutions := n.resolutions ++ [⟨resolved, .manual, .manual (some remote)⟩] },
      some resolved)

end MultiLeaderNode

/-! ### What a remote apply does to the store -/

/-- The clock a node has stored for a key, zero if there is none. -/
def MultiLeaderNode.clockOf (n : MultiLeaderNode I K (Value σ)) (key : K) : I → ℕ :=
  (n.store.data key).elim 0 fun e => e.vclock.count

/-- A remote apply keeps what is stored, because the version is old or conflicts are parked, takes
the version, or resolves a conflict. -/
inductive ReceiveStep (n n' : MultiLeaderNode I K (Value σ)) (remote : KVEntry I K (Value σ)) :
    Prop
  | keep (hstore : n'.store = n.store)
      (hwhy : n.resolver.type = .manual ∨ ∃ loc, n.store.data remote.key = some loc ∧
        (remote.vclock.equal loc.vclock = true ∨ remote.vclock.happensBefore loc.vclock = true))
  | take (hstore : n'.store = n.store.set remote)
      (hle : n.clockOf remote.key ≤ remote.vclock.count)
  | resolve (loc : KVEntry I K (Value σ)) (hloc : n.store.data remote.key = some loc)
      (h₁ : remote.vclock.happensBefore loc.vclock = false)
      (h₂ : loc.vclock.happensBefore remote.vclock = false)
      (hstore : n'.store = n.store.set (n.resolvedEntry ⟨remote.key, loc, remote, n.id⟩))

namespace MultiLeaderNode

variable (n : MultiLeaderNode I K (Value σ)) (remote : KVEntry I K (Value σ)) (t : ℤ)

/-- Every remote apply is one of the three. -/
lemma receiveRemoteWrite_step : ReceiveStep n (n.receiveRemoteWrite remote t) remote := by
  unfold receiveRemoteWrite
  dsimp only [Store.getRaw]
  cases hloc : n.store.data remote.key with
  | none =>
    refine .take rfl ?_
    rw [clockOf, hloc]
    exact fun _ => Nat.zero_le _
  | some loc =>
    dsimp only
    split_ifs with heq h₁ h₂ hpark hman
    · exact .keep rfl (.inr ⟨loc, hloc, .inl heq⟩)
    · exact .keep rfl (.inr ⟨loc, hloc, .inr h₁⟩)
    · refine .take rfl ?_
      rw [clockOf, hloc]
      exact (VectorClock.happensBefore_iff.mp h₂).le
    · exact .keep rfl (.inl hpark.1)
    · exact .keep rfl (.inl hman)
    · exact .resolve loc hloc (Bool.not_eq_true _ ▸ h₁) (Bool.not_eq_true _ ▸ h₂) rfl

/-- The winner has the join of both clocks. -/
lemma resolvedEntry_count (c : Conflict I K (Value σ)) : (n.resolvedEntry c).vclock.count =
    c.localEntry.vclock.count ⊔ c.remoteEntry.vclock.count := by
  unfold resolvedEntry
  rw [VectorClock.count_merge, VectorClock.count_merge]
  exact sup_eq_left.mpr (n.resolver.winner_clock_le c)

/-- A remote apply moves the hybrid clock, and changes neither the id, the state nor the resolver.
-/
lemma receiveRemoteWrite_frame : (n.receiveRemoteWrite remote t).id = n.id ∧
    (n.receiveRemoteWrite remote t).state = n.state ∧
    (n.receiveRemoteWrite remote t).resolver = n.resolver ∧
    (n.receiveRemoteWrite remote t).hlc = (n.hlc.update t remote.timestamp).1 := by
  dsimp only [receiveRemoteWrite, resolveAndStore]
  split
  · exact ⟨rfl, rfl, rfl, rfl⟩
  · split_ifs <;> exact ⟨rfl, rfl, rfl, rfl⟩

end MultiLeaderNode

end Replication.MultiLeader
