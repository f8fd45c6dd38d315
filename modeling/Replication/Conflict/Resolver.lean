import Mathlib.Data.Prod.Lex
import Replication.Conflict.CRDT
import Replication.Storage.Store

/-!
# Conflict · Resolver: who wins a conflict

`internal/conflict/lww.go`, `vectorclock.go`, `crdt.go` and `resolver.go`.

The ids and times of conflicts and resolutions are left out, and a clock is never `nil` here: an
entry with a `nil` clock compares as one with the empty clock.
-/

set_option linter.unusedSectionVars false
set_option linter.dupNamespace false

namespace Replication.Storage

variable {I K V : Type} [LinearOrder I] {a b : KVEntry I K V}

/-- Ids are compared for equality as they are ordered. The instance is named, so that all statements
about clocks use the same one, whatever their modules import. -/
instance lawfulBEq_of_linearOrder : LawfulBEq I := inferInstance

instance preorderStamp : Preorder (ℤ ×ₗ I) :=
  (@Prod.Lex.instLinearOrder ℤ I Int.instLinearOrder inferInstance).toPreorder

/-- What last-write-wins compares: the timestamp, then the node id. -/
def KVEntry.stamp (e : KVEntry I K V) : ℤ ×ₗ I := toLex (e.timestamp, e.nodeID)

/-- Stamps are compared by timestamp, then node id. -/
lemma KVEntry.stamp_lt_iff :
    a.stamp < b.stamp ↔ a.timestamp < b.timestamp ∨
      a.timestamp = b.timestamp ∧ a.nodeID < b.nodeID :=
  Prod.Lex.toLex_lt_toLex

/-- Equal stamps have both in common. -/
lemma KVEntry.stamp_eq_iff : a.stamp = b.stamp ↔ a.timestamp = b.timestamp ∧ a.nodeID = b.nodeID :=
  toLex_inj.trans Prod.mk_inj

/-- The weak order of stamps. -/
lemma KVEntry.stamp_le_iff :
    a.stamp ≤ b.stamp ↔ a.timestamp < b.timestamp ∨
      a.timestamp = b.timestamp ∧ a.nodeID ≤ b.nodeID :=
  Prod.Lex.toLex_le_toLex

/-- The version number is no part of the stamp, -/
@[simp] lemma stamp_content (e : KVEntry I K V) : e.content.stamp = e.stamp := rfl

/-- so equal contents have equal stamps. -/
lemma stamp_eq_of_content (h : a.content = b.content) : a.stamp = b.stamp := by
  rw [← stamp_content a, h, stamp_content]

end Replication.Storage

namespace Replication.Conflict

open Storage

/-- Source: `resolver.go` `ResolverType`. -/
inductive ResolverType where
  | lww
  | vectorClock
  | crdt
  | manual
  deriving DecidableEq, Repr

/-- A conflict resolver; that of vector clocks has another one for concurrent versions. Source:
`resolver.go` `ConflictResolver`. -/
inductive Resolver where
  | lww
  | vectorClock (fallback : Resolver)
  | crdt
  | manual
  deriving DecidableEq, Repr

/-- Source: `Type` of each resolver. -/
def Resolver.type : Resolver → ResolverType
  | .lww => .lww
  | .vectorClock _ => .vectorClock
  | .crdt => .crdt
  | .manual => .manual

/-- Two versions of a key. Source: `resolver.go` `Conflict`. -/
structure Conflict (I K V : Type) where
  key : K
  /-- `Local`. -/
  localEntry : KVEntry I K V
  /-- `Remote`. -/
  remoteEntry : KVEntry I K V
  nodeID : I

/-- The reason of a resolution, one case for each text of the source. -/
inductive Reason (I : Type) where
  /-- "local_newer". -/
  | localNewer
  /-- "remote_newer". -/
  | remoteNewer
  /-- "timestamp_tie_nodeID_tiebreak:remote=%s>local=%s". -/
  | tieRemote (remote loc : I)
  /-- "timestamp_tie_nodeID_tiebreak:local=%s>=remote=%s". -/
  | tieLocal (loc remote : I)
  /-- "remote_happens_before_local: local=%s remote=%s". -/
  | remoteBefore (loc remote : VectorClock I)
  /-- "local_happens_before_remote: local=%s remote=%s". -/
  | localBefore (loc remote : VectorClock I)
  /-- "concurrent_fallback_to_%s: %s". -/
  | fallback (type : ResolverType) (reason : Reason I)
  | merged (reason : MergeReason)
  /-- "lww_register_local". -/
  | registerLocal
  /-- "lww_register_remote". -/
  | registerRemote
  /-- "pending_manual", and "manual_" with the choice. -/
  | manual (choice : Option Bool)

/-- Source: `resolver.go` `Resolution`. -/
structure Resolution (I K V : Type) where
  winner : KVEntry I K V
  resolverType : ResolverType
  reason : Reason I

variable {I K V σ : Type} [LinearOrder I] [LinearOrder σ] [Inhabited σ]

/-- Source: `lww.go` `Resolve`. -/
def lwwResolve (c : Conflict I K V) : Resolution I K V :=
  if c.localEntry.timestamp < c.remoteEntry.timestamp then
    ⟨c.remoteEntry, .lww, .remoteNewer⟩
  else if c.remoteEntry.timestamp = c.localEntry.timestamp then
    -- tiebreak on the node id, higher wins
    if c.localEntry.nodeID < c.remoteEntry.nodeID then
      ⟨c.remoteEntry, .lww, .tieRemote c.remoteEntry.nodeID c.localEntry.nodeID⟩
    else ⟨c.localEntry, .lww, .tieLocal c.localEntry.nodeID c.remoteEntry.nodeID⟩
  else ⟨c.localEntry, .lww, .localNewer⟩

/-- Source: `crdt.go` `LWWRegister`. -/
structure LWWRegister (I V : Type) where
  value : V
  timestamp : ℤ
  nodeID : I

/-- Whether `Merge` returns the other register. Source: `crdt.go` `LWWRegister.Merge`. -/
def LWWRegister.mergeTakesOther (r other : LWWRegister I V) : Bool :=
  r.timestamp < other.timestamp ∨ other.timestamp = r.timestamp ∧ r.nodeID < other.nodeID

/-- Merge documents of the same type, or else keep the later register. Source: `crdt.go`
`CRDTResolver.Resolve`. -/
def crdtResolve (c : Conflict I K (Value σ)) : Resolution I K (Value σ) :=
  match mergeCRDT c.localEntry.value c.remoteEntry.value with
  | some (mergedBytes, reason) =>
    ⟨{ key := c.localEntry.key
       value := mergedBytes
       vclock := c.localEntry.vclock.merge c.remoteEntry.vclock
       timestamp := max c.localEntry.timestamp c.remoteEntry.timestamp
       nodeID := max c.localEntry.nodeID c.remoteEntry.nodeID
       tombstone := false
       version := 0 }, .crdt, .merged reason⟩
  | none =>
    if LWWRegister.mergeTakesOther
        ⟨c.localEntry.value, c.localEntry.timestamp, c.localEntry.nodeID⟩
        ⟨c.remoteEntry.value, c.remoteEntry.timestamp, c.remoteEntry.nodeID⟩ = true then
      ⟨c.remoteEntry, .crdt, .registerRemote⟩
    else ⟨c.localEntry, .crdt, .registerLocal⟩

/-- Source: `Resolve` of each resolver. -/
def Resolver.resolve (c : Conflict I K (Value σ)) : Resolver → Resolution I K (Value σ)
  | .lww => lwwResolve c
  | .vectorClock fallback =>
    if c.remoteEntry.vclock.happensBefore c.localEntry.vclock then
      ⟨c.localEntry, .vectorClock, .remoteBefore c.localEntry.vclock c.remoteEntry.vclock⟩
    else if c.localEntry.vclock.happensBefore c.remoteEntry.vclock then
      ⟨c.remoteEntry, .vectorClock, .localBefore c.localEntry.vclock c.remoteEntry.vclock⟩
    else
      let res := fallback.resolve c
      { res with reason := .fallback fallback.type res.reason }
  | .crdt => crdtResolve c
  | .manual => ⟨c.localEntry, .manual, .manual none⟩

/-! ### Last-write-wins -/

/-- **Last-write-wins keeps the larger stamp**, and the local entry on a tie. -/
theorem lwwResolve_winner (c : Conflict I K V) : (lwwResolve c).winner =
    if c.localEntry.stamp < c.remoteEntry.stamp then c.remoteEntry else c.localEntry := by
  unfold lwwResolve
  simp only [KVEntry.stamp_lt_iff]
  rcases lt_trichotomy c.localEntry.timestamp c.remoteEntry.timestamp with hlt | heq | hgt
  · simp [hlt]
  · simp only [heq, lt_irrefl, if_false, if_true, true_and, false_or]
    split_ifs <;> rfl
  · simp [hgt.not_gt, hgt.ne, hgt.ne']

/-- **The register of the CRDT resolver keeps the larger stamp** when the values do not merge. -/
theorem crdtResolve_winner_of_none (c : Conflict I K (Value σ))
    (h : mergeCRDT c.localEntry.value c.remoteEntry.value = none) : (crdtResolve c).winner =
    if c.localEntry.stamp < c.remoteEntry.stamp then c.remoteEntry else c.localEntry := by
  unfold crdtResolve LWWRegister.mergeTakesOther
  rw [h]
  simp only [decide_eq_true_eq, eq_comm (a := c.remoteEntry.timestamp), ← KVEntry.stamp_lt_iff]
  split_ifs <;> rfl

/-- Resolvers that come down to last-write-wins on concurrent versions. -/
def Resolver.isLWW : Resolver → Bool
  | .lww => true
  | .vectorClock fallback => fallback.isLWW
  | _ => false

/-- The resolvers that come down to last-write-wins keep the larger stamp of concurrent
versions. -/
lemma Resolver.resolve_winner_of_isLWW {r : Resolver} (hr : r.isLWW = true)
    (c : Conflict I K (Value σ))
    (h₁ : c.remoteEntry.vclock.happensBefore c.localEntry.vclock = false)
    (h₂ : c.localEntry.vclock.happensBefore c.remoteEntry.vclock = false) : (r.resolve c).winner =
    if c.localEntry.stamp < c.remoteEntry.stamp then c.remoteEntry else c.localEntry := by
  induction r with
  | lww => exact lwwResolve_winner c
  | vectorClock fallback ih =>
    rw [Resolver.resolve, h₁, h₂]
    exact ih hr
  | crdt | manual => cases hr

/-! ### Winners -/

section

variable (r : Resolver) (c : Conflict I K (Value σ))

/-- The winner is one of the two versions, or has their merged clock, the local key and the larger
timestamp. -/
lemma Resolver.winner_cases :
    (r.resolve c).winner = c.localEntry ∨ (r.resolve c).winner = c.remoteEntry ∨
      (r.resolve c).winner.vclock = c.localEntry.vclock.merge c.remoteEntry.vclock ∧
        (r.resolve c).winner.key = c.localEntry.key ∧
        (r.resolve c).winner.timestamp = max c.localEntry.timestamp c.remoteEntry.timestamp := by
  induction r with
  | lww =>
    rw [Resolver.resolve, lwwResolve_winner]
    split_ifs
    · exact .inr (.inl rfl)
    · exact .inl rfl
  | vectorClock fallback ih =>
    rw [Resolver.resolve]
    split_ifs
    · exact .inl rfl
    · exact .inr (.inl rfl)
    · exact ih
  | crdt =>
    rw [Resolver.resolve, crdtResolve]
    split
    · exact .inr (.inr ⟨rfl, rfl, rfl⟩)
    · split_ifs
      · exact .inr (.inl rfl)
      · exact .inl rfl
  | manual => exact .inl rfl

/-- The winner has no clock above both versions. -/
lemma Resolver.winner_clock_le :
    (r.resolve c).winner.vclock.count ≤ c.localEntry.vclock.count ⊔ c.remoteEntry.vclock.count := by
  rcases r.winner_cases c with h | h | ⟨h, -⟩
  · rw [h]
    exact le_sup_left
  · rw [h]
    exact le_sup_right
  · rw [h, VectorClock.count_merge]

/-- The winner has the key of both. -/
lemma Resolver.winner_key (h : c.localEntry.key = c.remoteEntry.key) :
    (r.resolve c).winner.key = c.remoteEntry.key := by
  rcases r.winner_cases c with hw | hw | ⟨-, hw, -⟩
  · rw [hw, h]
  · rw [hw]
  · rw [hw, h]

/-- The winner has one of the timestamps. -/
lemma Resolver.winner_timestamp :
    (r.resolve c).winner.timestamp = c.localEntry.timestamp ∨
      (r.resolve c).winner.timestamp = c.remoteEntry.timestamp := by
  rcases r.winner_cases c with hw | hw | ⟨-, -, hw⟩
  · rw [hw]
    exact .inl rfl
  · rw [hw]
    exact .inr rfl
  · rw [hw]
    exact max_choice _ _

end

end Replication.Conflict
