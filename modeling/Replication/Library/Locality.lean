import Mathlib.Data.List.Dedup
import Mathlib.Data.List.Perm.Basic
import Replication.Library.Sorting

/-!
# Library · Locality: merging orders of intervals

Items that take an interval of time, in classes. An order of them is compatible with time if no item
comes after one that begins when it has ended. Orders of the single classes that are compatible with
time can be merged into an order of all items.

* `RealTime` — compatible with time.
* `annotate` — a point in the interval of every item of an order, so that the points follow it.
-/

namespace Replication.Library

open List

variable {α κ γ : Type*} [LinearOrder γ] {hi : α → γ} {keys : List κ} {x : γ × α}

/-- No item comes after one that begins when it has ended. -/
def RealTime (lo hi : α → γ) (l : List α) : Prop := l.Pairwise fun a b => ¬hi b < lo a

section points

variable (lo : α → γ)

/-- Every item with the latest beginning up to it, and not before `m`. -/
def points : γ → List α → List (γ × α)
  | _, [] => []
  | m, a :: l => (max m (lo a), a) :: points (max m (lo a)) l

/-- Every item with the latest beginning up to it. -/
def annotate : List α → List (γ × α)
  | [] => []
  | a :: l => points lo (lo a) (a :: l)

variable {lo}

/-- The points belong to the items, in order. -/
lemma map_snd_points (m : γ) (l : List α) : (points lo m l).map Prod.snd = l := by
  induction l generalizing m with
  | nil => rfl
  | cons a l ih => rw [points, map_cons, ih]

/-- No point is before `m` or the beginning of its item. -/
lemma le_of_mem_points {m : γ} {l : List α} (hx : x ∈ points lo m l) : m ≤ x.1 ∧ lo x.2 ≤ x.1 := by
  induction l generalizing m with
  | nil => cases hx
  | cons a l ih =>
    rcases mem_cons.mp hx with rfl | hx
    · exact ⟨le_max_left _ _, le_max_right _ _⟩
    · obtain ⟨hm, hlo⟩ := ih hx
      exact ⟨(le_max_left _ _).trans hm, hlo⟩

/-- The points follow the order. -/
lemma pairwise_points (m : γ) (l : List α) : (points lo m l).Pairwise fun x y => x.1 ≤ y.1 := by
  induction l generalizing m with
  | nil => exact List.Pairwise.nil
  | cons a l ih => exact pairwise_cons.mpr ⟨fun _ hx => (le_of_mem_points hx).1, ih _⟩

/-- No point is after the end of its item. -/
lemma points_le {m : γ} {l : List α} (hm : ∀ a ∈ l, m ≤ hi a) (hle : ∀ a ∈ l, lo a ≤ hi a)
    (hl : RealTime lo hi l) (hx : x ∈ points lo m l) : x.1 ≤ hi x.2 := by
  induction l generalizing m with
  | nil => cases hx
  | cons a l ih =>
    obtain ⟨ha, hl⟩ := pairwise_cons.mp hl
    rcases mem_cons.mp hx with rfl | hx
    · exact max_le (hm a mem_cons_self) (hle a mem_cons_self)
    · refine ih (fun b hb => ?_) (fun b hb => hle b (mem_cons_of_mem a hb)) hl hx
      exact max_le (hm b (mem_cons_of_mem a hb)) (not_lt.mp (ha b hb))

variable {l : List α}

/-- The points belong to the items of the order. -/
lemma map_snd_annotate (l : List α) : (annotate lo l).map Prod.snd = l := by
  cases l with
  | nil => rfl
  | cons => exact map_snd_points _ _

/-- Annotated items are items. -/
lemma mem_of_mem_annotate (hx : x ∈ annotate lo l) : x.2 ∈ l := by
  have hmap : (annotate lo l).map Prod.snd = l := map_snd_annotate l
  rw [← hmap]
  exact mem_map_of_mem hx

/-- The points follow the order. -/
lemma pairwise_annotate (l : List α) : (annotate lo l).Pairwise fun x y => x.1 ≤ y.1 := by
  cases l with
  | nil => exact List.Pairwise.nil
  | cons => exact pairwise_points _ _

/-- The points are in the intervals of their items. -/
lemma annotate_spec (hle : ∀ a ∈ l, lo a ≤ hi a) (hl : RealTime lo hi l) (hx : x ∈ annotate lo l) :
    lo x.2 ≤ x.1 ∧ x.1 ≤ hi x.2 := by
  cases l with
  | nil => cases hx
  | cons =>
    refine ⟨(le_of_mem_points hx).2, points_le (fun b hb => ?_) hle hl hx⟩
    rcases mem_cons.mp hb with rfl | hb
    · exact hle b mem_cons_self
    · exact not_lt.mp ((pairwise_cons.mp hl).1 b hb)

end points

/-! ### Classes -/

section classes

variable [DecidableEq κ]

/-- The classes of a list make up the list. -/
lemma flatMap_filter_perm (key : α → κ) (hnodup : keys.Nodup) {l : List α}
    (hl : ∀ a ∈ l, key a ∈ keys) : (keys.flatMap fun k => l.filter fun a => key a = k).Perm l := by
  induction keys generalizing l with
  | nil =>
    obtain rfl : l = [] := eq_nil_iff_forall_not_mem.mpr fun a ha =>
      absurd (hl a ha) not_mem_nil
    exact List.Perm.nil
  | cons k keys ih =>
    obtain ⟨hk, hnodup⟩ := nodup_cons.mp hnodup
    have hrest : (keys.flatMap fun k' => l.filter fun a => key a = k') =
        keys.flatMap fun k' => (l.filter fun a => !decide (key a = k)).filter
          fun a => key a = k' := by
      refine flatMap_congr fun k' hk' => ?_
      rw [filter_filter]
      refine filter_congr fun a _ => ?_
      have hne : k' ≠ k := fun heq => hk (heq ▸ hk')
      by_cases ha : key a = k'
      · simp [ha, hne]
      · simp [ha]
    rw [flatMap_cons, hrest]
    refine ((ih hnodup fun a ha => ?_).append_left _).trans (filter_append_perm _ l)
    obtain ⟨ha, hne⟩ := mem_filter.mp ha
    have hne' : key a ≠ k := by simpa using hne
    exact (mem_cons.mp (hl a ha)).resolve_left hne'

/-- Of the classes, one is picked. -/
lemma flatMap_ite_eq {β : Type*} (hnodup : keys.Nodup) {k : κ} (hk : k ∈ keys) (f : κ → List β) :
    (keys.flatMap fun k' => if k' = k then f k' else []) = f k := by
  induction keys with
  | nil => cases hk
  | cons k₀ keys ih =>
    obtain ⟨hk₀, hnodup⟩ := nodup_cons.mp hnodup
    rw [flatMap_cons]
    rcases mem_cons.mp hk with rfl | hk
    · have hnil : (keys.flatMap fun k' => if k' = k then f k' else []) = [] := by
        refine flatMap_eq_nil_iff.mpr fun k' hk' => if_neg ?_
        exact fun heq => hk₀ (heq ▸ hk')
      rw [hnil, if_pos rfl, append_nil]
    · have hne : k₀ ≠ k := fun heq => hk₀ (heq ▸ hk)
      rw [ih hnodup hk, if_neg hne, nil_append]

/-- The annotated items of one class. -/
lemma filter_flatMap_annotate {lo : α → γ} {key : α → κ} {L : κ → List α} (hnodup : keys.Nodup)
    (hL : ∀ k, ∀ a ∈ L k, key a = k) {k : κ} (hnil : k ∉ keys → L k = []) :
    (keys.flatMap fun k => annotate lo (L k)).filter ((fun a => decide (key a = k)) ∘ Prod.snd) =
      annotate lo (L k) := by
  have hclass : ∀ k', (annotate lo (L k')).filter ((fun a => decide (key a = k)) ∘ Prod.snd) =
      if k' = k then annotate lo (L k') else [] := by
    intro k'
    split_ifs with hk'
    · refine filter_eq_self.mpr fun x hx => decide_eq_true ?_
      rw [← hk']
      exact hL k' _ (mem_of_mem_annotate hx)
    · refine filter_eq_nil_iff.mpr fun x hx heq => hk' ?_
      rw [← hL k' _ (mem_of_mem_annotate hx)]
      exact of_decide_eq_true heq
  rw [filter_flatMap, flatMap_congr fun k' _ => hclass k']
  by_cases hk : k ∈ keys
  · exact flatMap_ite_eq hnodup hk fun k' => annotate lo (L k')
  · rw [hnil hk]
    refine flatMap_eq_nil_iff.mpr fun k' hk' => if_neg ?_
    exact fun heq => hk (heq ▸ hk')

/-- **Locality.** Orders of the classes that are compatible with time can be merged. -/
theorem exists_merge {lo : α → γ} {items : List α} (hle : ∀ a ∈ items, lo a ≤ hi a) (key : α → κ)
    {L : κ → List α} (hperm : ∀ k, (L k).Perm (items.filter fun a => key a = k))
    (hrt : ∀ k, RealTime lo hi (L k)) :
    ∃ l : List α, l.Perm items ∧ RealTime lo hi l ∧ ∀ k, (l.filter fun a => key a = k) = L k := by
  have hL : ∀ k, ∀ a ∈ L k, a ∈ items ∧ key a = k := by
    intro k a ha
    simpa using (hperm k).mem_iff.mp ha
  let keys := (items.map key).dedup
  have hnodup : keys.Nodup := nodup_dedup _
  have hkeys : ∀ a ∈ items, key a ∈ keys := fun a ha =>
    mem_dedup.mpr (mem_map_of_mem ha)
  let all := keys.flatMap fun k => annotate lo (L k)
  let r : γ × α → γ × α → Prop := fun x y => x.1 ≤ y.1
  have : Std.Total r := ⟨fun x y => le_total x.1 y.1⟩
  have : IsTrans (γ × α) r := ⟨fun x y z => le_trans⟩
  have hspec : ∀ x ∈ all, lo x.2 ≤ x.1 ∧ x.1 ≤ hi x.2 := by
    intro x hx
    obtain ⟨k, -, hx⟩ := mem_flatMap.mp hx
    exact annotate_spec (fun a ha => hle a (hL k a ha).1) (hrt k) hx
  refine ⟨(all.insertionSort r).map Prod.snd, ?_, ?_, fun k => ?_⟩
  · -- the classes make up all items
    refine ((perm_insertionSort r all).map Prod.snd).trans ?_
    have hmap : all.map Prod.snd = keys.flatMap L := by
      rw [map_flatMap]
      exact flatMap_congr fun k _ => map_snd_annotate (L k)
    rw [hmap]
    refine List.Perm.trans ?_ (flatMap_filter_perm key hnodup hkeys)
    exact List.Perm.flatMap_left keys fun k _ => hperm k
  · -- an item that has ended has its point before the points of those that begin later
    refine pairwise_map.mpr ((pairwise_insertionSort r all).imp_of_mem ?_)
    intro x y hx hy hxy hlt
    have hx' := hspec x ((mem_insertionSort r).mp hx)
    have hy' := hspec y ((mem_insertionSort r).mp hy)
    exact absurd (hlt.trans_le (hx'.1.trans hxy)) (not_lt.mpr hy'.2)
  · rw [filter_map]
    have hfilter : all.filter ((fun a => decide (key a = k)) ∘ Prod.snd) = annotate lo (L k) := by
      refine filter_flatMap_annotate hnodup (fun k' a ha => (hL k' a ha).2) fun hk => ?_
      refine eq_nil_iff_forall_not_mem.mpr fun a ha => hk ?_
      obtain ⟨hmem, rfl⟩ := hL k a ha
      exact hkeys a hmem
    rw [filter_insertionSort, hfilter, (pairwise_annotate (L k)).insertionSort_eq, map_snd_annotate]

end classes

end Replication.Library
