import Mathlib.Order.MinMax

/-!
# Library · Terminal: a running maximum that can freeze

A scan that keeps the greater one of what it has and what it meets, except that some elements are
terminal: once the scan has reached one, it stays there.

* `keep T a b` — what the scan has after it has met `b`.
-/

namespace Replication.Library

open List

variable {α : Type*} [LinearOrder α] (T : α → Prop) [DecidablePred T]

/-- The greater one of two elements, unless the first is terminal. -/
def keep (a b : α) : α := if T a then a else max a b

variable {T} {a : α} {l l' : List α}

/-- A terminal element is kept. -/
lemma keep_of_terminal (ha : T a) (b : α) : keep T a b = a := if_pos ha

/-- Another one gives way to a greater one. -/
lemma keep_of_not_terminal (ha : ¬T a) (b : α) : keep T a b = max a b := if_neg ha

/-- What is kept only grows, -/
lemma le_keep (a b : α) : a ≤ keep T a b := by
  unfold keep
  split_ifs
  · exact le_rfl
  · exact le_max_left a b

/-- A scan stays at a terminal element. -/
lemma foldl_keep_of_terminal (ha : T a) (l : List α) : l.foldl (keep T) a = a := by
  induction l with
  | nil => rfl
  | cons b l ih => rw [foldl_cons, keep_of_terminal ha, ih]

/-- also over a whole scan. -/
lemma le_foldl_keep (a : α) (l : List α) : a ≤ l.foldl (keep T) a := by
  induction l generalizing a with
  | nil => exact le_rfl
  | cons b l ih => exact (le_keep a b).trans (ih _)

/-- What is kept is one of what was met. -/
lemma foldl_keep_mem (a : α) (l : List α) : l.foldl (keep T) a ∈ a :: l := by
  induction l generalizing a with
  | nil => exact mem_singleton_self a
  | cons b l ih =>
    have hkeep : keep T a b = a ∨ keep T a b = b := by
      unfold keep
      split_ifs
      · exact .inl rfl
      · exact max_choice a b
    rcases mem_cons.mp (ih (keep T a b)) with heq | hmem
    · rw [foldl_cons, heq]
      rcases hkeep with h | h
      · simp [h]
      · simp [h]
    · simp [hmem]

/-- **The scan finds the maximum** if the terminal elements that it can reach are above all
others. -/
theorem le_foldl_keep_of_mem (ha : T a → ∀ g ∈ l, g ≤ a)
    (hl : ∀ d ∈ l, T d → a < d → ∀ g ∈ l, g ≤ d) : ∀ g ∈ l, g ≤ l.foldl (keep T) a := by
  induction l generalizing a with
  | nil => exact nofun
  | cons b l ih =>
    by_cases hT : T a
    · rw [foldl_keep_of_terminal hT]
      exact ha hT
    rw [foldl_cons, keep_of_not_terminal hT]
    -- a terminal maximum is the element just met, and it was not reached before
    have ha' : T (max a b) → ∀ g ∈ l, g ≤ max a b := by
      intro hmax g hg
      rcases max_choice a b with h | h
      · exact absurd (h ▸ hmax) hT
      rw [h] at hmax ⊢
      have hne : a ≠ b := fun heq => hT (heq ▸ hmax)
      have hlt : a < b := lt_of_le_of_ne (max_eq_right_iff.mp h) hne
      exact hl b mem_cons_self hmax hlt g (mem_cons_of_mem b hg)
    have hl' : ∀ d ∈ l, T d → max a b < d → ∀ g ∈ l, g ≤ d := fun d hd hTd hlt g hg =>
      hl d (mem_cons_of_mem b hd) hTd ((le_max_left a b).trans_lt hlt) g
        (mem_cons_of_mem b hg)
    intro g hg
    rcases mem_cons.mp hg with rfl | hg
    · exact (le_max_right a g).trans (le_foldl_keep _ l)
    · exact ih ha' hl' g hg

/-- **The order does not matter**, nor do repetitions, if every terminal element that the scan can
reach is above all others. -/
theorem foldl_keep_congr (hmem : ∀ x, x ∈ l ↔ x ∈ l') (ha : ¬T a)
    (hl : ∀ d ∈ l, T d → a < d → ∀ g ∈ l, g ≤ d) : l.foldl (keep T) a = l'.foldl (keep T) a := by
  have hl' : ∀ d ∈ l', T d → a < d → ∀ g ∈ l', g ≤ d := fun d hd hTd hlt g hg =>
    hl d ((hmem d).mpr hd) hTd hlt g ((hmem g).mpr hg)
  have hmax := le_foldl_keep_of_mem (fun h => absurd h ha) hl
  have hmax' := le_foldl_keep_of_mem (fun h => absurd h ha) hl'
  apply le_antisymm
  · rcases mem_cons.mp (foldl_keep_mem (T := T) a l) with heq | h
    · rw [heq]
      exact le_foldl_keep a l'
    · exact hmax' _ ((hmem _).mp h)
  · rcases mem_cons.mp (foldl_keep_mem (T := T) a l') with heq | h
    · rw [heq]
      exact le_foldl_keep a l
    · exact hmax _ ((hmem _).mpr h)

end Replication.Library
