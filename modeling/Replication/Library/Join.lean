import Mathlib.Algebra.BigOperators.Group.List.Basic
import Mathlib.Algebra.Group.WithOne.Basic

/-!
# Library · Join: products of commuting idempotents

In a semigroup whose generators are idempotent and commute, a product depends only on the set of
its factors, as a join does, although the semigroup itself need not be commutative.
-/

namespace Replication.Library

open List

section monoid

variable {M : Type*} [Monoid M] {l l' : List M} {x : M}

/-- A factor that occurs already changes nothing. -/
lemma mul_prod_of_mem (hx : x ∈ l) (hidem : x * x = x) (hcomm : ∀ y ∈ l, Commute x y) :
    x * l.prod = l.prod := by
  induction l with
  | nil => cases hx
  | cons y l ih =>
    rw [prod_cons]
    rcases mem_cons.mp hx with rfl | hmem
    · rw [← mul_assoc, hidem]
    · have hy : x * y = y * x := hcomm y mem_cons_self
      rw [← mul_assoc, hy, mul_assoc, ih hmem fun z hz => hcomm z (mem_cons_of_mem y hz)]

/-- Nor do several. -/
lemma prod_mul_prod_of_subset (hsub : ∀ x ∈ l, x ∈ l') (hidem : ∀ x ∈ l', x * x = x)
    (hcomm : ∀ x ∈ l', ∀ y ∈ l', Commute x y) : l.prod * l'.prod = l'.prod := by
  induction l with
  | nil => rw [prod_nil, one_mul]
  | cons x l ih =>
    have hx := hsub x mem_cons_self
    rw [prod_cons, mul_assoc, ih fun y hy => hsub y (mem_cons_of_mem x hy)]
    exact mul_prod_of_mem hx (hidem x hx) (hcomm x hx)

/-- **A product of commuting idempotents depends only on the set of its factors.** -/
theorem prod_eq_of_mem_iff (h : ∀ x, x ∈ l ↔ x ∈ l') (hidem : ∀ x ∈ l, x * x = x)
    (hcomm : ∀ x ∈ l, ∀ y ∈ l, Commute x y) : l.prod = l'.prod := by
  have hprod : Commute l.prod l'.prod :=
    Commute.list_prod_right _ _ fun y hy =>
      Commute.list_prod_left _ _ fun x hx => hcomm x hx y ((h y).mpr hy)
  calc l.prod = l'.prod * l.prod :=
        (prod_mul_prod_of_subset (fun x hx => (h x).mpr hx) hidem hcomm).symm
    _ = l.prod * l'.prod := hprod.eq.symm
    _ = l'.prod := by
        refine prod_mul_prod_of_subset (fun x hx => (h x).mp hx)
          (fun x hx => hidem x ((h x).mpr hx)) ?_
        exact fun x hx y hy => hcomm x ((h x).mpr hx) y ((h y).mpr hy)

end monoid

section joins

variable {E M : Type*} [Semigroup M] {val : E → M} {S T : E → Prop} {m m' : M}

/-- `m` is a product of the values of the elements of `S`, in some order and with repetitions. -/
def Joins (val : E → M) (S : E → Prop) (m : M) : Prop :=
  ∃ l : List E, (∀ e, e ∈ l ↔ S e) ∧ (l.map fun e => (val e : WithOne M)).prod = m

/-- One element is the product of itself. -/
lemma Joins.single (val : E → M) (e : E) : Joins val (fun x => x = e) (val e) :=
  ⟨[e], fun _ => mem_singleton, by rw [map_singleton, prod_singleton]⟩

section

variable (h : Joins val S m)

include h

/-- The product of two products has the factors of both. -/
lemma Joins.mul (h' : Joins val T m') : Joins val (fun x => S x ∨ T x) (m * m') := by
  obtain ⟨l, hl, hprod⟩ := h
  obtain ⟨l', hl', hprod'⟩ := h'
  refine ⟨l ++ l', fun e => ?_, ?_⟩
  · rw [mem_append, hl, hl']
  · rw [map_append, prod_append, hprod, hprod', WithOne.coe_mul]

/-- **There is one product of commuting idempotents.** -/
theorem Joins.unique (h' : Joins val S m') (hidem : ∀ e, S e → val e * val e = val e)
    (hcomm : ∀ e e', S e → S e' → val e * val e' = val e' * val e) : m = m' := by
  obtain ⟨l, hl, hprod⟩ := h
  obtain ⟨l', hl', hprod'⟩ := h'
  refine WithOne.coe_injective ?_
  rw [← hprod, ← hprod']
  refine prod_eq_of_mem_iff (fun x => ?_) (fun x hx => ?_) (fun x hx y hy => ?_)
  · simp only [mem_map, hl, hl']
  · obtain ⟨e, he, rfl⟩ := mem_map.mp hx
    rw [← WithOne.coe_mul, hidem e ((hl e).mp he)]
  · obtain ⟨e, he, rfl⟩ := mem_map.mp hx
    obtain ⟨e', he', rfl⟩ := mem_map.mp hy
    show (val e : WithOne M) * val e' = val e' * val e
    rw [← WithOne.coe_mul, ← WithOne.coe_mul, hcomm e e' ((hl e).mp he) ((hl e').mp he')]

/-- There is no empty product in a semigroup. -/
lemma Joins.nonempty : ∃ e, S e := by
  obtain ⟨l, hl, hprod⟩ := h
  cases l with
  | nil => exact absurd hprod WithOne.one_ne_coe
  | cons e => exact ⟨e, (hl e).mp mem_cons_self⟩

/-- **Induction over a product.** -/
theorem Joins.induction {P : M → Prop} (hval : ∀ e, S e → P (val e))
    (hmul : ∀ a b, P a → P b → P (a * b)) : P m := by
  obtain ⟨l, hl, hprod⟩ := h
  have hlist : ∀ (l : List E) (m : M), (∀ e ∈ l, S e) →
      (l.map fun e => (val e : WithOne M)).prod = m → P m := by
    intro l
    induction l with
    | nil => exact fun m _ hm => absurd hm WithOne.one_ne_coe
    | cons e l ih =>
      intro m hS hm
      rw [map_cons, prod_cons] at hm
      have he := hval e (hS e mem_cons_self)
      by_cases hone : (l.map fun e => (val e : WithOne M)).prod = 1
      · rw [hone, mul_one] at hm
        rw [← WithOne.coe_injective hm]
        exact he
      · obtain ⟨m', hm'⟩ := WithOne.ne_one_iff_exists.mp hone
        rw [← hm', ← WithOne.coe_mul] at hm
        rw [← WithOne.coe_injective hm]
        exact hmul _ _ he (ih m' (fun x hx => hS x (mem_cons_of_mem e hx)) hm'.symm)
  exact hlist l m (fun e he => (hl e).mp he) hprod

end

end joins

end Replication.Library
