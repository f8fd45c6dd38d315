import Mathlib.Data.Int.Basic
import Mathlib.Data.List.Nodup
import Mathlib.Data.List.Perm.Subperm
import Mathlib.Tactic.ByContra

/-!
# Library · Quorum: sets that are too large to be disjoint

Whether all sets of given sizes out of two lists meet.
-/

namespace Replication.Library

open List

variable {α : Type*} {new old : List α} {r w : ℤ}

/-- **Overlap**: two lists without repetitions do not fit into a shorter list side by side. -/
theorem exists_mem_of_length_lt {l l₁ l₂ : List α} (h₁ : l₁.Nodup) (h₂ : l₂.Nodup)
    (hsub₁ : l₁ ⊆ l) (hsub₂ : l₂ ⊆ l) (hlen : l.length < l₁.length + l₂.length) :
    ∃ a, a ∈ l₁ ∧ a ∈ l₂ := by
  by_contra hnone
  have hdisj : l₁.Disjoint l₂ := fun a ha ha' => hnone ⟨a, ha, ha'⟩
  have hle := ((h₁.append h₂ hdisj).subperm (append_subset.mpr ⟨hsub₁, hsub₂⟩)).length_le
  rw [length_append] at hle
  omega

/-- A list without repetitions among `targets` has, apart from what is in `p`, no more than
`targets` has. -/
lemma length_le_filter_add {l targets : List α} (hnodup : l.Nodup) (hsub : l ⊆ targets)
    (p : α → Prop) [DecidablePred p] :
    l.length ≤ (l.filter fun a => p a).length + (targets.filter fun a => ¬ p a).length := by
  have hsplit := length_eq_length_filter_add (l := l) fun a => decide (p a)
  have hsub' : (l.filter fun a => ¬ p a) ⊆ targets.filter fun a => ¬ p a := by
    intro a ha
    rw [mem_filter] at ha ⊢
    exact ⟨hsub ha.1, ha.2⟩
  have hle := ((hnodup.filter fun a => ¬ p a).subperm hsub').length_le
  have hnot : (l.filter fun a => !decide (p a)) = l.filter fun a => ¬ p a := by
    refine filter_congr fun a _ => ?_
    simp
  rw [hnot] at hsplit
  omega

/-! ### Sets out of two lists -/

/-- Every `w` elements of the first list have one in common with every `r` elements of the second.
-/
def Meets (old new : List α) (w r : ℤ) : Prop :=
  ∀ A B : List α, A.Nodup → B.Nodup → A ⊆ old → B ⊆ new → (A.length : ℤ) = w → (B.length : ℤ) = r →
    ∃ a ∈ A, a ∈ B

/-- Sets out of one list meet if they do not fit side by side. -/
lemma meets_of_subset (hsub : old ⊆ new) (hlen : (new.length : ℤ) < w + r) : Meets old new w r := by
  intro A B hA hB hAold hBnew hw hr
  exact exists_mem_of_length_lt hA hB (List.Subset.trans hAold hsub) hBnew (by omega)

/-- Sets larger than their list do not exist. -/
lemma meets_of_length_lt (hlen : (old.length : ℤ) < w ∨ (new.length : ℤ) < r) :
    Meets old new w r := by
  intro A B hA hB hAold hBnew hw hr
  have hle := (hA.subperm hAold).length_le
  have hle' := (hB.subperm hBnew).length_le
  omega

/-- With room for both, and one element outside each list, there are disjoint sets. -/
lemma not_meets_of_common {common : List α} {d x : α} (hcommon : common.Nodup)
    (hold : d :: common ⊆ old) (hnew : x :: common ⊆ new) (hd : d ∉ new) (hx : x ∉ old) {w r : ℕ}
    (hlen : w + r ≤ common.length) : ¬ Meets old new (w + 1 : ℕ) (r + 1 : ℕ) := by
  intro hmeets
  have htake : common.take w ⊆ common := take_subset _ _
  have hdrop : (common.drop w).take r ⊆ common :=
    List.Subset.trans (take_subset _ _) (drop_subset _ _)
  obtain ⟨hdold, hcold⟩ := cons_subset.mp hold
  obtain ⟨hxnew, hcnew⟩ := cons_subset.mp hnew
  have hdisj : ∀ a ∈ common.take w, a ∉ (common.drop w).take r := by
    intro a ha ha'
    rw [← take_append_drop w common] at hcommon
    exact (nodup_append.mp hcommon).2.2 a ha a (mem_of_mem_take ha') rfl
  obtain ⟨a, ha, ha'⟩ := hmeets (d :: common.take w) (x :: (common.drop w).take r)
    (nodup_cons.mpr ⟨fun h => hd (hcnew (htake h)), hcommon.sublist (take_sublist _ _)⟩)
    (nodup_cons.mpr ⟨fun h => hx (hcold (hdrop h)),
      hcommon.sublist ((take_sublist _ _).trans (drop_sublist _ _))⟩)
    (cons_subset.mpr ⟨hdold, List.Subset.trans htake hcold⟩)
    (cons_subset.mpr ⟨hxnew, List.Subset.trans hdrop hcnew⟩)
    (by rw [length_cons, length_take]; omega)
    (by rw [length_cons, length_take, length_drop]; omega)
  rcases mem_cons.mp ha with rfl | hat
  · rcases mem_cons.mp ha' with rfl | had
    · exact hd hxnew
    · exact hd (hcnew (hdrop had))
  · rcases mem_cons.mp ha' with rfl | had
    · exact hx (hcold (htake hat))
    · exact hdisj a hat had

/-- **One element is replaced**: sets of sizes that make them meet out of one list still meet when
there is room for one element less, or none of their size. -/
theorem meets_iff_of_swap [DecidableEq α] {x : α} (hold : old.Nodup) (hnew : new.Nodup)
    (hlen : old.length = new.length) (hxnew : x ∈ new) (hxold : x ∉ old)
    (hcommon : (new.filter fun a => a ≠ x) ⊆ old) (hwr : (old.length : ℤ) < w + r) :
    Meets old new w r ↔ old.length + 1 < w + r ∨ old.length < w ∨ old.length < r := by
  constructor
  · intro hmeets
    by_contra! hsmall
    obtain ⟨hsum, hw, hr⟩ := hsmall
    have hsize : (new.filter fun a => a ≠ x).length + 1 = new.length := by
      have hsplit := length_eq_length_filter_add (l := new) fun a => decide (a ≠ x)
      have hone : (new.filter fun a => !decide (a ≠ x)).length = 1 := by
        rw [← countP_eq_length_filter, ← count_eq_one_of_mem hnew hxnew]
        exact countP_congr fun a _ => by simp
      omega
    -- the element that has been replaced
    obtain ⟨d, hdold, hdnew⟩ : ∃ d ∈ old, d ∉ new := by
      by_contra! hall
      have hsub : old ⊆ new.filter fun a => a ≠ x := fun a ha =>
        mem_filter.mpr ⟨hall a ha, decide_eq_true fun h => hxold (h ▸ ha)⟩
      have := (hold.subperm hsub).length_le
      omega
    obtain ⟨w, rfl⟩ : ∃ k : ℕ, w = (k + 1 : ℕ) := ⟨(w - 1).toNat, by omega⟩
    obtain ⟨r, rfl⟩ : ∃ k : ℕ, r = (k + 1 : ℕ) := ⟨(r - 1).toNat, by omega⟩
    refine not_meets_of_common (hnew.filter _) (cons_subset.mpr ⟨hdold, hcommon⟩)
      (cons_subset.mpr ⟨hxnew, filter_sublist.subset⟩) hdnew hxold ?_ hmeets
    omega
  · rintro (hsum | hw | hr)
    · intro A B hA hB hAold hBnew hw hr
      refine exists_mem_of_length_lt (l := x :: old) hA hB
        (List.Subset.trans hAold (subset_cons_self x old)) (fun b hb => ?_) ?_
      · by_cases hbx : b = x
        · exact mem_cons.mpr (.inl hbx)
        · exact mem_cons_of_mem x (hcommon (mem_filter.mpr ⟨hBnew hb, decide_eq_true hbx⟩))
      · rw [length_cons]
        omega
    · exact meets_of_length_lt (.inl hw)
    · exact meets_of_length_lt (.inr (hlen ▸ hr))

end Replication.Library
