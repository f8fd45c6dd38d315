import Mathlib.Data.List.Nodup
import Mathlib.Data.List.Sort

/-!
# Library · Sorting: leaving elements out

Sorting, turning a sorted list and cutting off its beginning, each with some elements left out.

* `split_findIdx` — where a sorted list is split by a bound.
-/

namespace Replication.Library

open List

variable {α : Type*}

section sort

variable {r : α → α → Prop} [DecidableRel r]

/-- An element below all others goes to the front. -/
lemma orderedInsert_of_forall {a : α} {l : List α} (h : ∀ b ∈ l, r a b) :
    l.orderedInsert r a = a :: l := by
  cases l with
  | nil => rfl
  | cons b l => exact orderedInsert_cons_of_le r l (h b mem_cons_self)

/-- Inserting and then leaving elements out is leaving them out and then inserting, unless the
inserted one is left out. -/
lemma filter_orderedInsert [IsTrans α r] (p : α → Bool) (a : α) {l : List α}
    (hl : l.Pairwise r) :
    (l.orderedInsert r a).filter p =
      if p a = true then (l.filter p).orderedInsert r a else l.filter p := by
  induction l with
  | nil =>
    rw [orderedInsert_nil, filter_cons]
    rfl
  | cons b l ih =>
    obtain ⟨hb, hl⟩ := pairwise_cons.mp hl
    by_cases hab : r a b
    · rw [orderedInsert_cons_of_le r l hab, filter_cons]
      split_ifs with ha
      · refine (orderedInsert_of_forall fun c hc => ?_).symm
        rcases mem_cons.mp (mem_filter.mp hc).1 with rfl | hc
        · exact hab
        · exact IsTrans.trans a b c hab (hb c hc)
      · rfl
    · rw [orderedInsert_of_not_le r l hab, filter_cons, filter_cons, ih hl]
      split_ifs
      · rw [orderedInsert_of_not_le r _ hab]
      all_goals rfl

/-- **Sorting keeps the order of what is left.** -/
theorem filter_insertionSort [Std.Total r] [IsTrans α r] (p : α → Bool) (l : List α) :
    (l.insertionSort r).filter p = (l.filter p).insertionSort r := by
  induction l with
  | nil => rfl
  | cons a l ih =>
    rw [insertionSort_cons, filter_orderedInsert p a (pairwise_insertionSort r l), ih, filter_cons]
    split_ifs <;> rfl

end sort

section split

variable {γ : Type*} [LinearOrder γ] {f : α → γ} {l : List α}

/-- Before the first element not below the bound, a sorted list has those below it, and from there
on the others. -/
lemma split_findIdx (hl : l.Pairwise fun a b => f a ≤ f b) (h : γ) :
    (l.take (l.findIdx fun a => h ≤ f a) = l.filter fun a => f a < h) ∧
      l.drop (l.findIdx fun a => h ≤ f a) = l.filter fun a => h ≤ f a := by
  induction l with
  | nil => exact ⟨rfl, rfl⟩
  | cons a l ih =>
    obtain ⟨ha, hl⟩ := pairwise_cons.mp hl
    obtain ⟨htake, hdrop⟩ := ih hl
    by_cases hfa : h ≤ f a
    · have hall : ∀ b ∈ a :: l, h ≤ f b :=
        forall_mem_cons.mpr ⟨hfa, fun b hb => hfa.trans (ha b hb)⟩
      rw [findIdx_cons, decide_eq_true hfa]
      exact ⟨(filter_eq_nil_iff.mpr fun b hb => by simpa using hall b hb).symm,
        (filter_eq_self.mpr fun b hb => decide_eq_true (hall b hb)).symm⟩
    · rw [findIdx_cons, decide_eq_false hfa, filter_cons_of_pos (by simpa using hfa),
        filter_cons_of_neg (by simpa using hfa)]
      exact ⟨congrArg (a :: ·) htake, hdrop⟩

end split

section beginning

variable [DecidableEq α] {l : List α} {x : α} {n : ℕ}

/-- Without repetitions, erasing an element leaves out all equal to it. -/
lemma erase_eq_filter_ne (hl : l.Nodup) (x : α) : l.erase x = l.filter fun a => a ≠ x := by
  rw [hl.erase_eq_filter]
  refine filter_congr fun a _ => ?_
  by_cases ha : a = x <;> simp [ha]

/-- A beginning without `x` is the same when `x` is left out. -/
lemma take_eq_take_filter (hx : x ∉ l.take n) : l.take n = (l.filter fun a => a ≠ x).take n := by
  have hself : ((l.take n).filter fun a => a ≠ x) = l.take n :=
    filter_eq_self.mpr fun a ha => decide_eq_true fun h => hx (h ▸ ha)
  have hsplit : (l.filter fun a => a ≠ x) = l.take n ++ (l.drop n).filter fun a => a ≠ x := by
    conv_lhs => rw [← take_append_drop n l, filter_append, hself]
  rw [hsplit]
  rcases Nat.lt_or_ge n l.length with hlen | hlen
  · rw [take_append_of_le_length (by rw [length_take]; omega), take_take,
      Nat.min_self]
  · rw [drop_of_length_le hlen, filter_nil, append_nil, take_take, Nat.min_self]

/-- A beginning with `x` has one element less when `x` is left out. -/
lemma filter_take (hl : l.Nodup) (hx : x ∈ l.take (n + 1)) :
    ((l.take (n + 1)).filter fun a => a ≠ x) = (l.filter fun a => a ≠ x).take n := by
  have hlen : ((l.take (n + 1)).filter fun a => a ≠ x).length = (l.take (n + 1)).length - 1 := by
    rw [← length_erase_of_mem hx, erase_eq_filter_ne (hl.sublist (take_sublist (n + 1) l))]
  have hsplit : (l.filter fun a => a ≠ x) =
      ((l.take (n + 1)).filter fun a => a ≠ x) ++ (l.drop (n + 1)).filter fun a => a ≠ x := by
    conv_lhs => rw [← take_append_drop (n + 1) l, filter_append]
  rw [hsplit]
  rw [length_take] at hlen
  generalize (l.take (n + 1)).filter (fun a => a ≠ x) = k at hlen
  rcases Nat.lt_or_ge n l.length with hn | hn
  · rw [take_append_of_le_length (by omega), take_of_length_le (by omega)]
  · rw [drop_of_length_le (by omega), filter_nil, append_nil, take_of_length_le (by omega)]

end beginning

end Replication.Library
