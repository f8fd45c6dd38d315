import Replication.Library.Sorting

/-!
# Library · Search: binary search

The loop of `sort.Search`: the smallest index at which a monotone predicate holds.

* `search n f` — the search in `[0, n)`, with a bound on its rounds that always suffices.
* `searchList`, `searchList_eq_findIdx` — the search in a list along which a predicate stays true
  once it is; `take_searchList`, `drop_searchList` — the two parts of a sorted list.
-/

namespace Replication.Library

/-- The rounds of a binary search in `[lo, hi)`. -/
def searchLoop (f : ℕ → Bool) : ℕ → ℕ → ℕ → ℕ
  | 0, lo, _ => lo
  | fuel + 1, lo, hi =>
    if lo < hi then
      if f ((lo + hi) / 2) then searchLoop f fuel lo ((lo + hi) / 2)
      else searchLoop f fuel ((lo + hi) / 2 + 1) hi
    else lo

/-- The smallest index below `n` at which `f` holds, or `n`. -/
def search (n : ℕ) (f : ℕ → Bool) : ℕ := searchLoop f n 0 n

section loop

variable {f : ℕ → Bool} {m n : ℕ}

/-- The place where the predicate turns true stays between the bounds. -/
lemma searchLoop_eq (hlow : ∀ i < m, f i = false) (hhigh : ∀ i, m ≤ i → i < n → f i = true)
    (fuel : ℕ) {lo hi : ℕ} (hlo : lo ≤ m) (hhi : m ≤ hi) (hn : hi ≤ n) (hfuel : hi - lo ≤ fuel) :
    searchLoop f fuel lo hi = m := by
  induction fuel generalizing lo hi with
  | zero =>
    unfold searchLoop
    omega
  | succ fuel ih =>
    unfold searchLoop
    split_ifs with hlt hf
    · have hmid : m ≤ (lo + hi) / 2 := by
        by_contra hlt'
        simp [hlow _ (not_le.mp hlt')] at hf
      exact ih hlo hmid (by omega) (by omega)
    · have hmid : (lo + hi) / 2 < m := by
        by_contra hge
        exact hf (hhigh _ (not_lt.mp hge) (by omega))
      exact ih hmid hhi hn (by omega)
    · omega

/-- **Where the predicate turns true, the search ends.** -/
theorem search_eq (hm : m ≤ n) (hlow : ∀ i < m, f i = false)
    (hhigh : ∀ i, m ≤ i → i < n → f i = true) : search n f = m :=
  searchLoop_eq hlow hhigh n (Nat.zero_le m) hm le_rfl (Nat.sub_le n 0)

end loop

/-! ### Lists -/

section list

variable {α : Type*} {l : List α}

/-- The search for the first element with a property. -/
def searchList (p : α → Bool) (l : List α) : ℕ := search l.length fun i => l[i]?.any p

/-- The search finds what a scan finds. -/
lemma searchList_eq_findIdx {p : α → Bool}
    (hl : l.Pairwise fun a b => p a = true → p b = true) : searchList p l = l.findIdx p := by
  refine search_eq List.findIdx_le_length (fun i hi => ?_) fun i hle hi => ?_
  · have hlt : i < l.length := hi.trans_le List.findIdx_le_length
    rw [List.getElem?_eq_getElem hlt, Option.any_some]
    exact List.not_of_lt_findIdx hi
  · have hfound : p (l.get ⟨l.findIdx p, hle.trans_lt hi⟩) = true := List.findIdx_getElem
    rw [List.getElem?_eq_getElem hi, Option.any_some]
    rcases hle.eq_or_lt with heq | hlt
    · subst heq
      exact hfound
    · exact List.pairwise_iff_get.mp hl ⟨l.findIdx p, hle.trans_lt hi⟩ ⟨i, hi⟩ hlt hfound

variable {γ : Type*} [LinearOrder γ] {g : α → γ}

section

variable (hl : l.Pairwise fun a b => g a ≤ g b) (h : γ)

include hl

/-- In a sorted list, a lower bound is such a property. -/
lemma searchList_of_sorted : searchList (fun a => h ≤ g a) l = l.findIdx fun a => h ≤ g a := by
  refine searchList_eq_findIdx (hl.imp fun hab => ?_)
  simp only [decide_eq_true_eq]
  exact fun ha => ha.trans hab

/-- Before the place found is what is below the bound, -/
lemma take_searchList : l.take (searchList (fun a => h ≤ g a) l) = l.filter fun a => g a < h := by
  rw [searchList_of_sorted hl, (split_findIdx hl h).1]

/-- from there on what is not. -/
lemma drop_searchList : l.drop (searchList (fun a => h ≤ g a) l) = l.filter fun a => h ≤ g a := by
  rw [searchList_of_sorted hl, (split_findIdx hl h).2]

/-- The place found counts what is below the bound. -/
lemma searchList_eq_length :
    searchList (fun a => h ≤ g a) l = (l.filter fun a => g a < h).length := by
  rw [← take_searchList hl, List.length_take, searchList_of_sorted hl]
  exact (Nat.min_eq_left List.findIdx_le_length).symm

/-- Both parts make up a sorted list. -/
lemma filter_append_filter : (l.filter fun a => g a < h) ++ (l.filter fun a => h ≤ g a) = l := by
  rw [← take_searchList hl, ← drop_searchList hl, List.take_append_drop]

end

end list

end Replication.Library
