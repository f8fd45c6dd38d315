import Mathlib.Data.Int.Notation
import Mathlib.Data.Nat.Notation
import Mathlib.Data.Option.Basic

/-!
# Swim · Membership: a node's view of the cluster

`internal/swim/swim.go`. A view knows members with a state and an incarnation number; the local node
is always among them, and a member is stored under its own id, which the type of views carries.
Incarnations are `uint64` and wrap around.

The sorted lists of ids that the queries return are left out; `tickSuspicions` returns the members
that it promotes as a predicate.
-/

namespace Replication.Swim

variable {I : Type}

/-- The believed liveness of a member. Source: `swim.go` `MemberState`. -/
inductive MemberState where
  | alive
  | suspect
  | dead
  deriving DecidableEq, Repr

/-- Source: `swim.go` `precedence`. -/
def precedence : MemberState → ℕ
  | .alive => 0
  | .suspect => 1
  | .dead => 2

/-- One member's state. Source: `swim.go` `Member`. -/
structure Member (I : Type) where
  id : I
  state : MemberState
  /-- The incarnation that the belief is about. -/
  incarnation : ℕ
  /-- When the suspicion began, on the clock of deadlines; gossip does not carry it. -/
  suspectedAt : ℤ
  deriving DecidableEq, Repr

/-- The next `uint64`. -/
def succIncarnation (incarnation : ℕ) : ℕ := (incarnation + 1) % UInt64.size

/-- Whether gossip overrides a belief: a higher incarnation, or the same one and a worse state.
Source: `swim.go` `gossipWinsLocked`. -/
def gossipWins (cur g : Member I) : Bool :=
  if cur.incarnation < g.incarnation then true
  else if g.incarnation < cur.incarnation then false
  else precedence cur.state < precedence g.state

/-- A node's view of the cluster. Source: `swim.go` `Membership`. -/
structure Membership (I : Type) where
  selfID : I
  members : I → Option (Member I)
  self_known : (members selfID).isSome = true
  /-- Members are stored under their ids. -/
  id_eq : ∀ id mem, members id = some mem → mem.id = id

namespace Membership

/-- What the view believes of a member. -/
def belief (m : Membership I) (id : I) : Option (MemberState × ℕ) :=
  (m.members id).map fun mem => (mem.state, mem.incarnation)

/-- The entry of the local member. -/
def self (m : Membership I) : Member I := (m.members m.selfID).get m.self_known

/-- The local member is stored under the local id. -/
lemma members_selfID (m : Membership I) : m.members m.selfID = some m.self :=
  (Option.some_get m.self_known).symm

/-- The local member has the local id. -/
lemma self_id (m : Membership I) : m.self.id = m.selfID := m.id_eq _ _ m.members_selfID

variable [DecidableEq I]

/-- Write the entry of a member. -/
def put (m : Membership I) (mem : Member I) : Membership I where
  selfID := m.selfID
  members := Function.update m.members mem.id (some mem)
  self_known := by
    by_cases h : m.selfID = mem.id
    · simp [h]
    · simpa [Function.update_of_ne h] using m.self_known
  id_eq := by
    intro id mem' h
    by_cases hid : id = mem.id
    · subst hid
      rw [Function.update_self] at h
      rw [← Option.some.inj h]
    · rw [Function.update_of_ne hid] at h
      exact m.id_eq id mem' h

/-- Writing an entry keeps the local id. -/
@[simp] lemma put_selfID (m : Membership I) (mem : Member I) : (m.put mem).selfID = m.selfID :=
  rfl

/-- Writing an entry changes that entry. -/
@[simp] lemma put_members (m : Membership I) (mem : Member I) :
    (m.put mem).members = Function.update m.members mem.id (some mem) := rfl

/-- Source: `swim.go` `NewMembership`. -/
def new (selfID : I) : Membership I where
  selfID := selfID
  members := Function.update (fun _ => none) selfID (some ⟨selfID, .alive, 0, 0⟩)
  self_known := by simp
  id_eq := by
    intro id mem h
    by_cases hid : id = selfID
    · subst hid
      rw [Function.update_self] at h
      rw [← Option.some.inj h]
    · rw [Function.update_of_ne hid] at h
      exact absurd h (Option.some_ne_none mem).symm

/-- Mark a member as alive. Source: `swim.go` `Alive`. -/
def alive (m : Membership I) (id : I) (incarnation : ℕ) : Membership I :=
  match m.members id with
  | none => m.put ⟨id, .alive, incarnation, 0⟩
  | some cur =>
    if cur.state = .dead then m
    else if incarnation < cur.incarnation then m
    else if incarnation = cur.incarnation ∧ cur.state = .suspect then m
    else m.put { cur with state := .alive, incarnation := incarnation, suspectedAt := 0 }

/-- Take a higher incarnation and be alive. Source: `swim.go` `RefuteSuspicion`,
`refuteSuspicionLocked`. -/
def refuteSuspicion (m : Membership I) : Membership I :=
  m.put { m.self with
    state := .alive, incarnation := succIncarnation m.self.incarnation, suspectedAt := 0 }

/-- Suspect a member; a suspicion of the local node is refuted. Source: `swim.go` `Suspect`. -/
def suspect (m : Membership I) (id : I) (incarnation : ℕ) (now : ℤ) : Membership I :=
  if id = m.selfID then m.refuteSuspicion
  else
    match m.members id with
    | none => m.put ⟨id, .suspect, incarnation, now⟩
    | some cur =>
      if cur.state = .dead then m
      else if incarnation < cur.incarnation then m
      else if cur.state = .suspect ∧ incarnation = cur.incarnation then m
      else m.put { cur with state := .suspect, incarnation := incarnation, suspectedAt := now }

/-- Confirm a member as failed. Source: `swim.go` `Dead`, `Confirm`. -/
def dead (m : Membership I) (id : I) : Membership I :=
  match m.members id with
  | none => m.put ⟨id, .dead, 0, 0⟩
  | some cur => m.put { cur with state := .dead, suspectedAt := 0 }

/-- The suspicion began before the deadline. -/
def expired (deadline : ℤ) (mem : Member I) : Bool :=
  mem.state = .suspect ∧ mem.suspectedAt < deadline

/-- Confirm the members that have been suspected since before a deadline, and return them. Source:
`swim.go` `TickSuspicions`. -/
def tickSuspicions (m : Membership I) (deadline : ℤ) : Membership I × (I → Bool) :=
  ({ selfID := m.selfID
     members := fun id => (m.members id).map fun mem =>
       if expired deadline mem then { mem with state := .dead, suspectedAt := 0 } else mem
     self_known := by rw [Option.isSome_map]; exact m.self_known
     id_eq := by
       intro id mem h
       obtain ⟨mem', hmem', rfl⟩ := Option.map_eq_some_iff.mp h
       rw [apply_ite Member.id, ite_self]
       exact m.id_eq id mem' hmem' },
    fun id => (m.members id).any (expired deadline))

/-- Gossip about the local node: a claim that it is suspected or dead is refuted. Source: `swim.go`
`mergeSelfLocked`. -/
def mergeSelf (m : Membership I) (g : Member I) : Membership I :=
  if g.state = .alive then
    if m.self.incarnation < g.incarnation then
      m.put { m.self with incarnation := g.incarnation }
    else m
  else if g.incarnation < m.self.incarnation then m
  else
    m.put { m.self with
      state := .alive, incarnation := succIncarnation g.incarnation, suspectedAt := 0 }

/-- One claim of a gossip list. Source: `swim.go` `Merge`, the body of the loop. -/
def mergeOne (m : Membership I) (g : Member I) : Membership I :=
  if g.id = m.selfID then m.mergeSelf g
  else
    match m.members g.id with
    | none => m.put ⟨g.id, g.state, g.incarnation, 0⟩
    | some cur =>
      if cur.state = .dead then m
      else if gossipWins cur g then
        m.put { cur with state := g.state, incarnation := g.incarnation, suspectedAt := 0 }
      else m

/-- Fold a gossip list into the view. Source: `swim.go` `Merge`. -/
def merge (m : Membership I) (gossip : List (Member I)) : Membership I := gossip.foldl mergeOne m

end Membership

end Replication.Swim
