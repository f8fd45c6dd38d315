import Mathlib.Data.Set.Insert
import Mathlib.Order.Lattice

/-!
# Library · Causal: events counted by a vector clock

Events have an origin and are numbered per origin. A clock counts the events whose number does not
exceed its component at their origin.
-/

namespace Replication.Library

open Function

variable {E ι R : Type*}

section counted

variable (origin : E → ι) (number : E → ℕ)

/-- The events of `H` that the clock `c` counts. -/
def Counted (H : Set E) (c : ι → ℕ) (e : E) : Prop := e ∈ H ∧ number e ≤ c (origin e)

variable {origin number} {H : Set E} {a b c : ι → ℕ} {e w : E}

/-- The join of two clocks counts what one of them counts. -/
lemma counted_sup : Counted origin number H (a ⊔ b) e ↔
    Counted origin number H a e ∨ Counted origin number H b e := by
  unfold Counted
  rw [Pi.sup_apply, le_sup_iff, and_or_left]

/-- A new event that is ahead of the clock is not counted. -/
lemma counted_insert_of_lt (hlt : c (origin w) < number w) :
    Counted origin number (insert w H) c e ↔ Counted origin number H c e := by
  unfold Counted
  rw [Set.mem_insert_iff]
  constructor
  · rintro ⟨rfl | he, hle⟩
    · exact absurd hle (not_le.mpr hlt)
    · exact ⟨he, hle⟩
  · rintro ⟨he, hle⟩
    exact ⟨.inr he, hle⟩

variable (origin number) in
/-- **The next event of an origin**: the clock that ticks for it counts it and what was counted
before, when no other event of the origin is ahead of the clock. -/
theorem counted_insert_next [DecidableEq ι] (hw : number w = c (origin w) + 1)
    (hH : ∀ e ∈ H, origin e = origin w → number e ≤ c (origin w)) :
    Counted origin number (insert w H)
        (update c (origin w) (c (origin w) + 1)) e ↔
      e = w ∨ Counted origin number H c e := by
  unfold Counted
  rw [Set.mem_insert_iff]
  by_cases ho : origin e = origin w
  · rw [ho, update_self]
    constructor
    · rintro ⟨rfl | he, -⟩
      · exact .inl rfl
      · exact .inr ⟨he, hH e he ho⟩
    · rintro (rfl | ⟨he, hle⟩)
      · exact ⟨.inl rfl, hw.le⟩
      · exact ⟨.inr he, hle.trans (Nat.le_succ _)⟩
  · rw [update_of_ne ho]
    constructor
    · rintro ⟨rfl | he, hle⟩
      · exact absurd rfl ho
      · exact .inr ⟨he, hle⟩
    · rintro (rfl | ⟨he, hle⟩)
      · exact absurd rfl ho
      · exact ⟨.inr he, hle⟩

end counted

section top

variable [LinearOrder R] {rank : E → R} {S T : E → Prop} {v w : E}

/-- `w` is in `S`, and nothing in `S` ranks above it. -/
structure Top (rank : E → R) (S : E → Prop) (w : E) : Prop where
  mem : S w
  le : ∀ x, S x → rank x ≤ rank w

/-- The greater of two tops is a top of the union. -/
lemma Top.sup (hw : Top rank S w) (hv : Top rank T v) :
    Top rank (fun x => S x ∨ T x) (if rank w < rank v then v else w) := by
  split_ifs with hlt
  · refine ⟨.inr hv.mem, ?_⟩
    rintro x (hx | hx)
    · exact (hw.le x hx).trans hlt.le
    · exact hv.le x hx
  · refine ⟨.inl hw.mem, ?_⟩
    rintro x (hx | hx)
    · exact hw.le x hx
    · exact (hv.le x hx).trans (not_lt.mp hlt)

/-- An element above all others is a top with them. -/
lemma Top.next (hS : ∀ x, S x → rank x ≤ rank w) : Top rank (fun x => x = w ∨ S x) w := by
  refine ⟨.inl rfl, ?_⟩
  rintro x (rfl | hx)
  · exact le_rfl
  · exact hS x hx

/-- Different ranks leave one top. -/
lemma Top.unique (hw : Top rank S w) (hv : Top rank S v)
    (hinj : ∀ x y, S x → S y → rank x = rank y → x = y) : w = v :=
  hinj w v hw.mem hv.mem (le_antisymm (hv.le w hw.mem) (hw.le v hv.mem))

end top

end Replication.Library
