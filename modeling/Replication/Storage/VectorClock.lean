import Mathlib.Data.Finset.Card
import Mathlib.Order.Lattice
import Replication.Storage.Entry

/-!
# Storage · VectorClock: the order of vector clocks

The operations of `internal/storage/entry.go` on vector clocks, and what they are on the counters:
`HappensBefore` is the strict pointwise order, `Dominates` the pointwise order and `Merge` the
pointwise maximum. `Equal` compares the sizes of the maps as well, so it is equality of the counters
only for clocks without zero entries (`Positive`), which are the ones the operations build.

The code mutates a clock in place after `Clone`; here an operation returns the new clock.
-/

set_option linter.unusedSectionVars false

namespace Replication.Storage

open Function

namespace VectorClock

variable {I : Type} [DecidableEq I] {other vc : VectorClock I}

/-- Source: `entry.go` `Increment`. -/
def increment (vc : VectorClock I) (nodeID : I) : VectorClock I where
  keys := insert nodeID vc.keys
  count := Function.update vc.count nodeID (vc.count nodeID + 1)
  count_of_notMem i hi := by
    rw [Finset.mem_insert, not_or] at hi
    rw [Function.update_of_ne hi.1]
    exact vc.count_of_notMem i hi.2

/-- Entries of `other` above those of `vc` replace them. Source: `entry.go` `Merge`. -/
def merge (vc other : VectorClock I) : VectorClock I where
  keys := vc.keys ∪ other.keys.filter fun i => vc.count i < other.count i
  count i := if vc.count i < other.count i then other.count i else vc.count i
  count_of_notMem i hi := by
    rw [Finset.mem_union, Finset.mem_filter, not_or, not_and] at hi
    have hvc := vc.count_of_notMem i hi.1
    split_ifs with hlt
    · exact other.count_of_notMem i fun hmem => hi.2 hmem hlt
    · exact hvc

/-- Source: `entry.go` `HappensBefore`. -/
def happensBefore (vc other : VectorClock I) : Bool :=
  (∀ i ∈ vc.keys, vc.count i ≤ other.count i) ∧
    ((∃ i ∈ vc.keys, vc.count i < other.count i) ∨
      ∃ i ∈ other.keys, i ∉ vc.keys ∧ 0 < other.count i)

/-- Source: `entry.go` `Dominates`. -/
def dominates (vc other : VectorClock I) : Bool := ∀ i ∈ other.keys, other.count i ≤ vc.count i

/-- Source: `entry.go` `Equal`. -/
def equal (vc other : VectorClock I) : Bool :=
  vc.keys.card = other.keys.card ∧ ∀ i ∈ vc.keys, other.count i = vc.count i

/-- No counter is zero. -/
def Positive (vc : VectorClock I) : Prop := ∀ i ∈ vc.keys, 0 < vc.count i

/-! ### The operations on counters -/

@[simp] lemma count_increment (vc : VectorClock I) (nodeID : I) :
    (vc.increment nodeID).count = update vc.count nodeID (vc.count nodeID + 1) := rfl

@[simp] lemma count_merge (vc other : VectorClock I) :
    (vc.merge other).count = vc.count ⊔ other.count := by
  funext i
  show (if vc.count i < other.count i then other.count i else vc.count i) =
    vc.count i ⊔ other.count i
  split_ifs with hlt
  · exact (sup_eq_right.mpr hlt.le).symm
  · exact (sup_eq_left.mpr (not_lt.mp hlt)).symm

lemma dominates_iff : vc.dominates other = true ↔ other.count ≤ vc.count := by
  rw [dominates, decide_eq_true_eq]
  constructor
  · intro h i
    by_cases hi : i ∈ other.keys
    · exact h i hi
    · rw [other.count_of_notMem i hi]
      exact Nat.zero_le _
  · exact fun h i _ => h i

/-- **Happens-before is the strict pointwise order.** -/
theorem happensBefore_iff : vc.happensBefore other = true ↔ vc.count < other.count := by
  rw [happensBefore, decide_eq_true_eq, Pi.lt_def]
  refine and_congr ?_ ?_
  · rw [← dominates_iff, dominates, decide_eq_true_eq]
  · constructor
    · rintro (⟨i, -, hlt⟩ | ⟨i, -, hni, hpos⟩)
      · exact ⟨i, hlt⟩
      · exact ⟨i, by rwa [vc.count_of_notMem i hni]⟩
    · rintro ⟨i, hlt⟩
      by_cases hi : i ∈ vc.keys
      · exact .inl ⟨i, hi, hlt⟩
      -- a key only the other clock has
      rw [vc.count_of_notMem i hi] at hlt
      refine .inr ⟨i, ?_, hi, hlt⟩
      by_contra hni
      rw [other.count_of_notMem i hni] at hlt
      exact absurd hlt (lt_irrefl 0)

instance : DecidableEq (VectorClock I) := fun vc other =>
  decidable_of_iff (vc.keys = other.keys ∧ ∀ i ∈ vc.keys, vc.count i = other.count i) <| by
    constructor
    · rintro ⟨hkeys, hval⟩
      refine VectorClock.ext hkeys (funext fun i => ?_)
      by_cases hi : i ∈ vc.keys
      · exact hval i hi
      · rw [vc.count_of_notMem i hi, other.count_of_notMem i (hkeys ▸ hi)]
    · rintro rfl
      exact ⟨rfl, fun _ _ => rfl⟩

lemma mem_keys_merge {i : I} :
    i ∈ (vc.merge other).keys ↔ i ∈ vc.keys ∨ vc.count i < other.count i := by
  show i ∈ vc.keys ∪ _ ↔ _
  rw [Finset.mem_union, Finset.mem_filter]
  refine or_congr_right ⟨fun h => h.2, fun h => ⟨?_, h⟩⟩
  by_contra hni
  rw [other.count_of_notMem i hni] at h
  exact absurd h (Nat.not_lt_zero _)

/-- **Merging is associative.** -/
theorem merge_assoc (a b c : VectorClock I) : (a.merge b).merge c = a.merge (b.merge c) := by
  refine VectorClock.ext ?_ ?_
  · ext i
    simp only [mem_keys_merge, count_merge, Pi.sup_apply, sup_lt_iff, lt_sup_iff]
    constructor
    · rintro ((h | h) | h)
      · exact .inl h
      · exact .inr (.inl h)
      · exact .inr (.inr h.1)
    · rintro (h | h | h)
      · exact .inl (.inl h)
      · exact .inl (.inr h)
      · by_cases hab : a.count i < b.count i
        · exact .inl (.inr hab)
        · exact .inr ⟨h, (not_lt.mp hab).trans_lt h⟩
  · rw [count_merge, count_merge, count_merge, count_merge, sup_assoc]

section positive

variable {vc other : VectorClock I}

lemma positive_empty : (empty : VectorClock I).Positive :=
  fun _ hi => absurd hi (Finset.notMem_empty _)

section

variable (h : vc.Positive)

include h

lemma Positive.increment (nodeID : I) : (vc.increment nodeID).Positive := by
  intro i hi
  rw [count_increment]
  by_cases heq : i = nodeID
  · subst heq
    rw [update_self]
    exact Nat.succ_pos _
  · rw [update_of_ne heq]
    exact h i ((Finset.mem_insert.mp hi).resolve_left heq)

lemma Positive.merge (other : VectorClock I) : (vc.merge other).Positive := by
  intro i hi
  rw [count_merge, Pi.sup_apply]
  rcases Finset.mem_union.mp hi with hi | hi
  · exact lt_sup_of_lt_left (h i hi)
  · exact lt_sup_of_lt_right (Nat.zero_lt_of_lt (Finset.mem_filter.mp hi).2)

lemma Positive.mem_keys_iff {i : I} : i ∈ vc.keys ↔ 0 < vc.count i := by
  refine ⟨h i, fun hpos => ?_⟩
  by_contra hi
  rw [vc.count_of_notMem i hi] at hpos
  exact absurd hpos (lt_irrefl 0)

lemma Positive.ext (h' : other.Positive) (hcount : vc.count = other.count) : vc = other := by
  refine VectorClock.ext ?_ hcount
  ext i
  rw [h.mem_keys_iff, h'.mem_keys_iff, hcount]

/-- **Equality of clocks without zero entries** is equality of their counters. -/
theorem Positive.equal_iff (h' : other.Positive) :
    vc.equal other = true ↔ vc.count = other.count := by
  rw [equal, decide_eq_true_eq]
  constructor
  · rintro ⟨hcard, hval⟩
    -- every key of the one is a key of the other, and there are equally many
    have hsub : vc.keys ⊆ other.keys := by
      intro i hi
      rw [h'.mem_keys_iff, hval i hi]
      exact h i hi
    have hkeys := Finset.eq_of_subset_of_card_le hsub hcard.symm.le
    funext i
    by_cases hi : i ∈ vc.keys
    · exact (hval i hi).symm
    · rw [vc.count_of_notMem i hi, other.count_of_notMem i (hkeys ▸ hi)]
  · intro hcount
    rw [h.ext h' hcount]
    exact ⟨rfl, fun i _ => rfl⟩

end

end positive

end VectorClock

/-- Stored entries are compared field by field. -/
instance {I K V : Type} [DecidableEq I] [DecidableEq K] [DecidableEq V] :
    DecidableEq (KVEntry I K V) := fun a b =>
  decidable_of_iff (a.key = b.key ∧ a.value = b.value ∧ a.vclock = b.vclock ∧
      a.timestamp = b.timestamp ∧ a.nodeID = b.nodeID ∧ a.tombstone = b.tombstone ∧
      a.version = b.version) <| by
    cases a
    cases b
    simp only [KVEntry.mk.injEq]

end Replication.Storage
