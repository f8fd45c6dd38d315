import Mathlib.Data.List.AList
import Replication.Library.TermLog

/-!
# Library · Reorder: releasing buffered items in order

Items arrive under their positions in any order and are buffered in a finite map; those that
follow the last released position without a gap are released.
-/

namespace Replication.Library

variable {E : Type*}

/-- Release the items at `a + 1`, `a + 2`, …, up to the first missing one, in at most `k`
rounds. -/
def release : ℕ → ℕ → AList (fun _ : ℕ => E) → List E × ℕ × AList (fun _ : ℕ => E)
  | 0, a, p => ([], a, p)
  | k + 1, a, p =>
    match p.lookup (a + 1) with
    | none => ([], a, p)
    | some e => (e :: (release k (a + 1) (p.erase (a + 1))).1,
        (release k (a + 1) (p.erase (a + 1))).2)

section release

variable {k a : ℕ} {p : AList (fun _ : ℕ => E)}

/-- The position only grows. -/
lemma le_release (k a : ℕ) (p : AList (fun _ : ℕ => E)) : a ≤ (release k a p).2.1 := by
  fun_induction release k a p with
  | case1 | case2 => exact le_rfl
  | case3 k a p e h ih => exact (Nat.le_succ a).trans ih

/-- Above the new position the buffer is as it was. -/
lemma lookup_release {i : ℕ} (hi : (release k a p).2.1 < i) :
    (release k a p).2.2.lookup i = p.lookup i := by
  fun_induction release k a p with
  | case1 | case2 => rfl
  | case3 k a p e h ih =>
    have hlt : a + 1 < i := lt_of_le_of_lt (le_release k (a + 1) (p.erase (a + 1))) hi
    exact (ih hi).trans (AList.lookup_erase_ne hlt.ne')

/-- What is left of the other items. -/
lemma lookup_of_lookup_erase {i j : ℕ} {e : E} (h : (p.erase j).lookup i = some e) :
    i ≠ j ∧ p.lookup i = some e := by
  have hne : i ≠ j := by
    rintro rfl
    simp [AList.lookup_erase] at h
  rw [AList.lookup_erase_ne hne] at h
  exact ⟨hne, h⟩

/-- What stays in the buffer is above the new position, if all of it was above the old one. -/
lemma lt_of_lookup_release {i : ℕ} {e : E} (h : (release k a p).2.2.lookup i = some e)
    (hp : ∀ j e', p.lookup j = some e' → a < j) : (release k a p).2.1 < i := by
  fun_induction release k a p with
  | case1 | case2 => exact hp i e h
  | case3 k a p e₀ hnext ih =>
    refine ih h fun j e' he' => ?_
    obtain ⟨hne, he'⟩ := lookup_of_lookup_erase he'
    have := hp j e' he'
    omega

/-- A buffered item counts for one. -/
lemma length_keys_erase {i : ℕ} {e : E} (h : p.lookup i = some e) :
    (p.erase i).keys.length + 1 = p.keys.length := by
  have hmem : i ∈ p.keys := AList.lookup_isSome.mp (h ▸ rfl)
  rw [AList.keys_erase, List.length_erase_of_mem hmem]
  have := List.length_pos_of_mem hmem
  omega

/-- **Enough rounds.** With as many rounds as buffered items, nothing is left at the next
position. -/
theorem lookup_next_release (hk : p.keys.length ≤ k) :
    (release k a p).2.2.lookup ((release k a p).2.1 + 1) = none := by
  fun_induction release k a p with
  | case1 a p =>
    have hnil : p.keys = [] := List.length_eq_zero_iff.mp (Nat.le_zero.mp hk)
    refine AList.lookup_eq_none.mpr fun hmem => ?_
    have : a + 1 ∈ p.keys := hmem
    simp [hnil] at this
  | case2 k a p h => exact h
  | case3 k a p e h ih =>
    refine ih ?_
    have := length_keys_erase h
    omega

/-- **Released in order.** A buffer of items of `ℓ` releases the part of `ℓ` between the old and
the new position. -/
theorem take_release {ℓ : List E} (hp : ∀ i e, p.lookup i = some e → entryAt ℓ i = some e)
    (ha : a ≤ ℓ.length) :
    ℓ.take (release k a p).2.1 = ℓ.take a ++ (release k a p).1 ∧
      (release k a p).2.1 ≤ ℓ.length := by
  fun_induction release k a p with
  | case1 | case2 => exact ⟨(List.append_nil _).symm, ha⟩
  | case3 k a p e h ih =>
    have he := hp _ _ h
    obtain ⟨htake, hle⟩ := ih (fun i e' h' => hp i e' (lookup_of_lookup_erase h').2)
      (entryAt_bounds he).2
    refine ⟨?_, hle⟩
    show ℓ.take (release k (a + 1) (p.erase (a + 1))).2.1 = _
    rw [htake, take_succ_of_getElem? (i := a) he, List.append_assoc]
    rfl

/-- **No gap, no rest.** A buffer that has every position up to `j` releases up to `j`. -/
theorem le_release_of_mem {j : ℕ} (hk : p.keys.length ≤ k)
    (hj : ∀ i, a < i → i ≤ j → i ∈ p) : j ≤ (release k a p).2.1 := by
  by_contra hlt
  have hle := le_release k a p
  -- the position after the new one is still buffered
  have hmem := hj ((release k a p).2.1 + 1) (by omega) (by omega)
  rw [← AList.lookup_isSome, ← lookup_release (k := k) (a := a) (Nat.lt_succ_self _),
    lookup_next_release hk] at hmem
  cases hmem

/-- **Nothing is lost.** The positions that are released or buffered stay the same. -/
theorem held_release_iff {i : ℕ} :
    i ≤ (release k a p).2.1 ∨ i ∈ (release k a p).2.2 ↔ i ≤ a ∨ i ∈ p := by
  fun_induction release k a p with
  | case1 | case2 => exact Iff.rfl
  | case3 k a p e h ih =>
    have hmem : a + 1 ∈ p := AList.lookup_isSome.mp (h ▸ rfl)
    rw [ih, AList.mem_erase]
    constructor
    · rintro (hi | ⟨-, hi⟩)
      · rcases Nat.le_succ_iff.mp hi with hi | rfl
        · exact .inl hi
        · exact .inr hmem
      · exact .inr hi
    · rintro (hi | hi)
      · exact .inl (hi.trans (Nat.le_succ a))
      · by_cases hne : i = a + 1
        · exact .inl hne.le
        · exact .inr ⟨hne, hi⟩

end release

end Replication.Library
