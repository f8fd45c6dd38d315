import Mathlib.Data.List.Basic
import Mathlib.Logic.Function.Basic

/-!
# Library · LastWrite: maps that show the last write of every key

A map from keys to values is compared with a set of indexed writes.
-/

namespace Replication.Library

open Function

variable {E κ V V' : Type*}

/-- The map `data` has, for every key, the effect of a write in `C` that no write in `P` to the
same key comes after. -/
structure LastWrite (key : E → κ) (eff : E → V) (C P : ℕ → E → Prop) (data : κ → Option V) :
    Prop where
  absent : ∀ k, data k = none → ∀ i e, P i e → key e ≠ k
  present : ∀ k v, data k = some v → ∃ j e, C j e ∧ key e = k ∧ v = eff e ∧
    ∀ i e', P i e' → j < i → key e' ≠ k

variable {key : E → κ} {eff : E → V} {C C' P P' : ℕ → E → Prop} {data data' : κ → Option V}

/-- The empty map shows no writes. -/
lemma lastWrite_empty (h : ∀ i e, ¬ P i e) : LastWrite key eff C P fun _ => none where
  absent _ _ i e he := absurd he (h i e)
  present _ _ h := by cases h

namespace LastWrite

variable (h : LastWrite key eff C P data)
include h

/-- More candidates and fewer writes to come after them. -/
lemma mono (hC : ∀ j e, C j e → C' j e) (hP : ∀ i e, P' i e → P i e) :
    LastWrite key eff C' P' data where
  absent k hk i e he := h.absent k hk i e (hP i e he)
  present k v hv := by
    obtain ⟨j, e, hj, hkey, heff, hlast⟩ := h.present k v hv
    exact ⟨j, e, hC j e hj, hkey, heff, fun i e' he' => hlast i e' (hP i e' he')⟩

/-- A function of the effects. -/
lemma map (g : V → V') : LastWrite key (fun e => g (eff e)) C P fun k => (data k).map g where
  absent k hk := h.absent k (Option.map_eq_none_iff.mp hk)
  present k v hv := by
    obtain ⟨v₀, hv₀, rfl⟩ := Option.map_eq_some_iff.mp hv
    obtain ⟨j, e, hj, hkey, rfl, hlast⟩ := h.present k v₀ hv₀
    exact ⟨j, e, hj, hkey, rfl, hlast⟩

/-- A write that is the last of its key. -/
lemma write [DecidableEq κ] {j : ℕ} {e : E} (hj : C j e) (hP : ∀ i e', P' i e' → P i e' ∨ e' = e)
    (hlast : ∀ i e', P' i e' → key e' = key e → i ≤ j) :
    LastWrite key eff C P' (update data (key e) (some (eff e))) := by
  constructor
  · intro k hk i e' he' hkey
    have hne : k ≠ key e := by
      rintro rfl
      simp [update_self] at hk
    rw [update_of_ne hne] at hk
    rcases hP i e' he' with he' | rfl
    · exact h.absent k hk i e' he' hkey
    · exact hne hkey.symm
  · intro k v hv
    by_cases hk : k = key e
    · subst hk
      rw [update_self, Option.some.injEq] at hv
      refine ⟨j, e, hj, rfl, hv.symm, fun i e' he' hlt hkey => ?_⟩
      have := hlast i e' he' hkey
      omega
    · rw [update_of_ne hk] at hv
      obtain ⟨j₀, e₀, hj₀, hkey, heff, hl⟩ := h.present k v hv
      refine ⟨j₀, e₀, hj₀, hkey, heff, fun i e' he' hlt hkey' => ?_⟩
      rcases hP i e' he' with he' | rfl
      · exact hl i e' he' hlt hkey'
      · exact hk hkey'.symm

end LastWrite

/-- The last writes determine the map. -/
lemma LastWrite.unique (h : LastWrite key eff P P data) (h' : LastWrite key eff P P data')
    (hinj : ∀ i e e', P i e → P i e' → e = e') : data = data' := by
  funext k
  cases hd : data k with
  | none =>
    cases hd' : data' k with
    | none => rfl
    | some v' =>
      obtain ⟨j, e, hj, hkey, -⟩ := h'.present k v' hd'
      exact absurd hkey (h.absent k hd j e hj)
  | some v =>
    obtain ⟨j, e, hj, hkey, rfl, hlast⟩ := h.present k v hd
    cases hd' : data' k with
    | none => exact absurd hkey (h'.absent k hd' j e hj)
    | some v' =>
      obtain ⟨j', e', hj', hkey', rfl, hlast'⟩ := h'.present k v' hd'
      -- each of the two writes is not before the other
      have hle : ¬ j < j' := fun hlt => hlast j' e' hj' hlt hkey'
      have hge : ¬ j' < j := fun hlt => hlast' j e hj hlt hkey
      obtain rfl : j = j' := by omega
      rw [hinj j e e' hj hj']

end Replication.Library
