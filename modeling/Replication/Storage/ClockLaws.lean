import Replication.Storage.VectorClock

/-!
# Storage · ClockLaws: the laws of vector clocks

`internal/storage/entry.go`. The four comparisons of vector clocks are written separately, over maps
in which a missing key counts as zero. For the clocks that the operations build, they fit together:
such clocks have no zero entries, and are the same map iff they have the same counters.
-/

namespace Replication.Storage

namespace VectorClock

variable {I : Type} [DecidableEq I] {a b : VectorClock I}

/-- Source: `entry.go` `Concurrent`. -/
def concurrent (vc other : VectorClock I) : Bool :=
  !vc.happensBefore other && !other.happensBefore vc && !vc.equal other

/-- A map with the same entries. Source: `entry.go` `Clone`. -/
def clone (vc : VectorClock I) : VectorClock I := vc

/-- The clocks that are built from the empty one. -/
inductive Built : VectorClock I → Prop
  | empty : Built .empty
  | increment {vc : VectorClock I} (nodeID : I) (h : Built vc) : Built (vc.increment nodeID)
  | merge {vc other : VectorClock I} (h : Built vc) (h' : Built other) : Built (vc.merge other)
  | clone {vc : VectorClock I} (h : Built vc) : Built vc.clone

/-- **No entry of a clock is zero.** -/
theorem Built.positive (h : Built a) : a.Positive := by
  induction h with
  | empty => exact positive_empty
  | increment nodeID _ ih => exact ih.increment nodeID
  | merge _ _ ih => exact ih.merge _
  | clone _ ih => exact ih

/-- **Clocks without zero entries are in one of four cases.** -/
theorem four_cases (ha : a.Positive) (hb : b.Positive) :
    [a.equal b, a.happensBefore b, b.happensBefore a, a.concurrent b].count true = 1 := by
  have heq := ha.equal_iff hb
  have hab : a.happensBefore b = true ↔ a.count < b.count := happensBefore_iff
  have hba : b.happensBefore a = true ↔ b.count < a.count := happensBefore_iff
  unfold concurrent
  cases h₁ : a.equal b with
  | true =>
    have hcount := heq.mp h₁
    have h₂ : a.happensBefore b = false := by
      rw [Bool.eq_false_iff, ne_eq, hab, hcount]
      exact lt_irrefl _
    have h₃ : b.happensBefore a = false := by
      rw [Bool.eq_false_iff, ne_eq, hba, hcount]
      exact lt_irrefl _
    rw [h₂, h₃]
    rfl
  | false =>
    cases h₂ : a.happensBefore b with
    | true =>
      have h₃ : b.happensBefore a = false := by
        rw [Bool.eq_false_iff, ne_eq, hba]
        exact lt_asymm (hab.mp h₂)
      rw [h₃]
      rfl
    | false => cases b.happensBefore a <;> rfl

lemma dominates_iff_equal_or (ha : a.Positive) (hb : b.Positive) :
    a.dominates b = true ↔ a.equal b = true ∨ b.happensBefore a = true := by
  rw [dominates_iff, ha.equal_iff hb, happensBefore_iff, le_iff_eq_or_lt, eq_comm]

/-- **The laws of vector clocks**, for all clocks that are built from the empty one: happens-before
is the strict order of the components, irreflexive and transitive; exactly one of equal, before,
after and concurrent holds; dominates is the order that belongs to it; and a merge is the least
clock that dominates both. -/
theorem vector_clock_laws (ha : Built a) (hb : Built b) (c : VectorClock I) :
    (a.happensBefore b = true ↔
        (∀ i, a.count i ≤ b.count i) ∧ ∃ i, a.count i < b.count i) ∧
      a.happensBefore a = false ∧
      (a.happensBefore b = true → b.happensBefore c = true → a.happensBefore c = true) ∧
      [a.equal b, a.happensBefore b, b.happensBefore a, a.concurrent b].count true = 1 ∧
      (a.equal b = true ↔ ∀ i, a.count i = b.count i) ∧
      (a.dominates b = true ↔ ∀ i, b.count i ≤ a.count i) ∧
      (a.dominates b = true ↔ a.equal b = true ∨ b.happensBefore a = true) ∧
      (a.merge b).dominates a = true ∧ (a.merge b).dominates b = true ∧
      (c.dominates a = true → c.dominates b = true → c.dominates (a.merge b) = true) := by
  refine ⟨happensBefore_iff.trans Pi.lt_def, ?_, ?_, four_cases ha.positive hb.positive,
    (ha.positive.equal_iff hb.positive).trans funext_iff, dominates_iff.trans Iff.rfl,
    dominates_iff_equal_or ha.positive hb.positive, ?_, ?_, ?_⟩
  · rw [Bool.eq_false_iff, ne_eq, happensBefore_iff]
    exact lt_irrefl _
  · rw [happensBefore_iff, happensBefore_iff, happensBefore_iff]
    exact lt_trans
  · rw [dominates_iff, count_merge]
    exact le_sup_left
  · rw [dominates_iff, count_merge]
    exact le_sup_right
  · rw [dominates_iff, dominates_iff, dominates_iff, count_merge]
    exact sup_le

/-- Two concurrent clocks, and one that dominates both. -/
theorem vector_clock_laws_pair :
    (empty.increment false).concurrent (empty.increment true) = true ∧
      [(empty.increment false).equal (empty.increment true),
        (empty.increment false).happensBefore (empty.increment true),
        (empty.increment true).happensBefore (empty.increment false),
        (empty.increment false).concurrent (empty.increment true)].count true = 1 ∧
      (((empty.increment false).increment true).dominates
        ((empty.increment false).merge (empty.increment true)) = true) := by
  have h := vector_clock_laws (.increment false .empty) (.increment true .empty)
    ((empty.increment false).increment true)
  refine ⟨by decide, h.2.2.2.1, h.2.2.2.2.2.2.2.2.2 (by decide) (by decide)⟩

end VectorClock

end Replication.Storage
