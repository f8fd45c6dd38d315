import Mathlib.Data.Finset.Card
import Mathlib.Order.Bounds.Basic

/-!
# Library · Overlap: the smallest intersection of two subsets

Two subsets of a set overlap by what does not fit into it side by side, and need not overlap by
more; so all subsets of two sizes meet iff the sizes add up to more than the set has.
-/

namespace Replication.Library

variable {α : Type*} [DecidableEq α] {s : Finset α} {w r : ℕ}

/-- **Overlap**: what does not fit into a set side by side is in both subsets. -/
theorem card_le_card_inter_add {A B : Finset α} (hA : A ⊆ s) (hB : B ⊆ s) :
    A.card + B.card ≤ (A ∩ B).card + s.card := by
  have hunion := Finset.card_le_card (Finset.union_subset hA hB)
  have hsum := Finset.card_union_add_card_inter A B
  omega

section

variable (hw : w ≤ s.card) (hr : r ≤ s.card)

include hw hr

/-- **Subsets that overlap by no more**: the second one takes first what the first one leaves. -/
theorem exists_card_inter :
    ∃ A B : Finset α, A ⊆ s ∧ B ⊆ s ∧ A.card = w ∧ B.card = r ∧
      (A ∩ B).card = w + r - s.card := by
  obtain ⟨A, hA, hAw⟩ := Finset.exists_subset_card_eq hw
  have hrest : (s \ A).card = s.card - w := by rw [Finset.card_sdiff_of_subset hA, hAw]
  rcases Nat.lt_or_ge (s.card - w) r with hlt | hge
  · -- all of the rest, and some of the first one
    obtain ⟨C, hC, hCr⟩ := Finset.exists_subset_card_eq (s := A) (n := r - (s.card - w)) (by omega)
    have hdisj : Disjoint (s \ A) C := Finset.disjoint_of_subset_right hC Finset.sdiff_disjoint
    have hinter : A ∩ (s \ A ∪ C) = C := by
      rw [Finset.inter_union_distrib_left, Finset.inter_sdiff_self, Finset.empty_union,
        Finset.inter_eq_right.mpr hC]
    refine ⟨A, s \ A ∪ C, hA, Finset.union_subset Finset.sdiff_subset (hC.trans hA), hAw, ?_, ?_⟩
    · rw [Finset.card_union_of_disjoint hdisj, hrest, hCr]
      omega
    · rw [hinter, hCr]
      omega
  · -- the rest is large enough
    obtain ⟨B, hB, hBr⟩ := Finset.exists_subset_card_eq (s := s \ A) (n := r) (by omega)
    have hdisj : Disjoint A B := Finset.disjoint_of_subset_right hB Finset.disjoint_sdiff
    refine ⟨A, B, hA, hB.trans Finset.sdiff_subset, hAw, hBr, ?_⟩
    rw [Finset.disjoint_iff_inter_eq_empty.mp hdisj, Finset.card_empty]
    omega

/-- **The smallest intersection** of subsets of two sizes. -/
theorem isLeast_card_inter :
    IsLeast {k | ∃ A B : Finset α, A ⊆ s ∧ B ⊆ s ∧ A.card = w ∧ B.card = r ∧ (A ∩ B).card = k}
      (w + r - s.card) := by
  refine ⟨exists_card_inter hw hr, ?_⟩
  rintro k ⟨A, B, hA, hB, rfl, rfl, rfl⟩
  have := card_le_card_inter_add hA hB
  omega

/-- **All subsets of two sizes meet** iff they do not fit into the set side by side. -/
theorem forall_inter_nonempty_iff :
    (∀ A B : Finset α, A ⊆ s → B ⊆ s → A.card = w → B.card = r → (A ∩ B).Nonempty) ↔
      s.card < w + r := by
  constructor
  · intro h
    obtain ⟨A, B, hA, hB, hAw, hBr, hinter⟩ := exists_card_inter hw hr
    have hpos := Finset.card_pos.mpr (h A B hA hB hAw hBr)
    omega
  · rintro h A B hA hB rfl rfl
    have := card_le_card_inter_add hA hB
    exact Finset.card_pos.mp (by omega)

end

end Replication.Library
