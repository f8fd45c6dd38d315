import Mathlib.Data.List.MinMax
import Mathlib.Data.Set.Function

/-!
# Library · Newest: selections of the greatest element

Different scans of a list that all keep the greatest element under a stamp.
-/

namespace Replication.Library

open List

variable {α γ : Type*} [LinearOrder γ] {f : α → γ}

/-- A greatest element with a stamp of its own is the one that is found. -/
lemma argmax_eq_some {l : List α} {g : α} (hg : g ∈ l) (hle : ∀ a ∈ l, f a ≤ f g)
    (hinj : ∀ a ∈ l, f a = f g → a = g) : l.argmax f = some g := by
  cases h : l.argmax f with
  | none =>
    rw [argmax_eq_none] at h
    simp [h] at hg
  | some a =>
    have ha := argmax_mem h
    have heq : f a = f g := le_antisymm (hle a ha) (le_of_mem_argmax hg h)
    rw [hinj a ha heq]

/-- The loop that keeps the greater element finds the first greatest. -/
lemma foldl_argmax (a : α) (l : List α) :
    (a :: l).argmax f = some (l.foldl (fun b x => if f b < f x then x else b) a) := by
  induction l using List.reverseRecOn with
  | nil => rfl
  | append_singleton l x ih =>
    rw [← cons_append, argmax_concat, ih, foldl_append]
    exact (apply_ite some _ _ _).symm

/-- A running maximum is above all it has met, -/
lemma le_foldl_max (l : List γ) (b : γ) : b ≤ l.foldl max b ∧ ∀ a ∈ l, a ≤ l.foldl max b := by
  induction l generalizing b with
  | nil => exact ⟨le_rfl, nofun⟩
  | cons a l ih =>
    obtain ⟨hb, hl⟩ := ih (max b a)
    rw [foldl_cons]
    refine ⟨(le_max_left b a).trans hb, fun x hx => ?_⟩
    rcases mem_cons.mp hx with rfl | hx
    · exact (le_max_right b x).trans hb
    · exact hl x hx

/-- and one of them. -/
lemma foldl_max_mem (l : List γ) (b : γ) : l.foldl max b = b ∨ l.foldl max b ∈ l := by
  induction l generalizing b with
  | nil => exact .inl rfl
  | cons a l ih =>
    rw [foldl_cons]
    rcases ih (max b a) with h | h
    · rcases max_choice b a with hmax | hmax
      · exact .inl (h.trans hmax)
      · exact .inr (mem_cons.mpr (.inl (h.trans hmax)))
    · exact .inr (mem_cons_of_mem _ h)

/-- The element found is above those before it, and not below those after it. -/
lemma argmax_eq_some_iff_split {l : List α} {e : α} : l.argmax f = some e ↔
    ∃ before after, l = before ++ e :: after ∧ (∀ x ∈ before, f x < f e) ∧
      ∀ x ∈ after, f x ≤ f e := by
  constructor
  · intro h
    induction l with
    | nil => cases h
    | cons a l ih =>
      rw [argmax_cons] at h
      cases hl : l.argmax f with
      | none =>
        rw [hl] at h
        cases h
        rw [argmax_eq_none] at hl
        exact ⟨[], l, rfl, nofun, fun x hx => absurd (hl ▸ hx) not_mem_nil⟩
      | some =>
        rw [hl] at h
        dsimp only at h
        split_ifs at h with hlt
        · cases h
          obtain ⟨before, after, rfl, hbefore, hafter⟩ := ih hl
          refine ⟨a :: before, after, rfl, fun x hx => ?_, hafter⟩
          rcases mem_cons.mp hx with rfl | hx
          · exact hlt
          · exact hbefore x hx
        · cases h
          refine ⟨[], l, rfl, nofun, fun x hx => ?_⟩
          exact (le_of_mem_argmax hx hl).trans (not_lt.mp hlt)
  · rintro ⟨before, after, rfl, hbefore, hafter⟩
    induction before with
    | nil =>
      rw [nil_append, argmax_cons]
      cases hl : after.argmax f with
      | none => rfl
      | some c => exact if_neg (hafter c (argmax_mem hl)).not_gt
    | cons b before ih =>
      rw [cons_append, argmax_cons, ih fun x hx => hbefore x (mem_cons_of_mem b hx)]
      exact if_pos (hbefore b mem_cons_self)

/-- Changes that keep the stamps keep the choice. -/
lemma argmax_map {g : α → α} (hg : ∀ a, f (g a) = f a) (l : List α) :
    (l.map g).argmax f = (l.argmax f).map g := by
  induction l with
  | nil => rfl
  | cons a l ih =>
    rw [map_cons, argmax_cons, argmax_cons, ih]
    cases l.argmax f with
    | none => rfl
    | some =>
      simp only [Option.map_some, hg]
      split_ifs <;> rfl

/-- On a set, the operation returns the later one of its arguments. -/
structure Selects (f : α → γ) (S : Set α) (op : α → α → α) : Prop where
  mem : ∀ a ∈ S, ∀ b ∈ S, op a b ∈ S
  left_le : ∀ a ∈ S, ∀ b ∈ S, f a ≤ f (op a b)
  right_le : ∀ a ∈ S, ∀ b ∈ S, f b ≤ f (op a b)

namespace Selects

variable {S : Set α} {op : α → α → α}

/-- A scan stays in the set and is above all it has met. -/
lemma foldl_spec (h : Selects f S op) {a : α} {l : List α} (hS : ∀ x ∈ a :: l, x ∈ S) :
    l.foldl op a ∈ S ∧ ∀ x ∈ a :: l, f x ≤ f (l.foldl op a) := by
  induction l generalizing a with
  | nil =>
    refine ⟨hS a mem_cons_self, fun x hx => ?_⟩
    rw [mem_singleton.mp hx]
    exact le_rfl
  | cons b l ih =>
    have ha := hS a mem_cons_self
    have hb := hS b (mem_cons_of_mem a mem_cons_self)
    have hS' : ∀ x ∈ op a b :: l, x ∈ S := by
      intro x hx
      rcases mem_cons.mp hx with rfl | hx
      · exact h.mem a ha b hb
      · exact hS x (mem_cons_of_mem a (mem_cons_of_mem b hx))
    obtain ⟨hmem, hle⟩ := ih hS'
    have hop := hle (op a b) mem_cons_self
    refine ⟨hmem, fun x hx => ?_⟩
    rcases mem_cons.mp hx with rfl | hx
    · exact (h.left_le x ha b hb).trans hop
    · rcases mem_cons.mp hx with rfl | hx
      · exact (h.right_le a ha x hb).trans hop
      · exact hle x (mem_cons_of_mem _ hx)

/-- **Every scan of a set ends at its greatest element.** -/
theorem foldl_eq (h : Selects f S op) (hinj : S.InjOn f) {g : α} (hg : g ∈ S)
    (hle : ∀ a ∈ S, f a ≤ f g) {a : α} {l : List α} (hmem : ∀ x, x ∈ a :: l ↔ x ∈ S) :
    l.foldl op a = g := by
  obtain ⟨hres, hall⟩ := h.foldl_spec fun x hx => (hmem x).mp hx
  have hge : f g ≤ f (l.foldl op a) := hall g ((hmem g).mpr hg)
  exact hinj hres hg (le_antisymm (hle _ hres) hge)

end Selects

end Replication.Library
