import Mathlib.Data.Finset.Sort
import Mathlib.Data.String.Basic
import Replication.Conflict.Merge

/-!
# Conflict · Laws: which merges are joins, and what a merged set reports

Every merge is associative and absorbs a value that it has taken in. All but one are commutative: a
G-counter keeps the slots of its left side that count zero, and drops those of its right side. A
merged set reports an element by its tags that are not *listed* as removed, where the sets
themselves ask whether a tag is listed as `true`.

* `merge_comm_iff`, `PNCounter.merge_comm`, `ORSet.merge_comm`, `LWWMap.merge_comm`,
  `RGA.merge_comm` — commutativity of the five types; `PNCounter.merge_merge_self` and so on —
  absorption.
-/

set_option linter.unusedSectionVars false

namespace Replication.Conflict

open Storage

variable {σ : Type} [LinearOrder σ]

/-! ### Counters -/

section counters

variable (g h : VectorClock σ)

/-- The slots of a merge: those of the left side, and those the right side counts. -/
lemma mem_keys_merge_iff {i : σ} : i ∈ (g.merge h).keys ↔ i ∈ g.keys ∨ 0 < h.count i := by
  rw [VectorClock.mem_keys_merge]
  by_cases hi : i ∈ g.keys
  · simp [hi]
  · rw [g.count_of_notMem i hi]

/-- A slot that one side counts as zero is also one of the other side. -/
def ZerosShared : Prop :=
  (∀ i ∈ g.keys, g.count i = 0 → i ∈ h.keys) ∧ ∀ i ∈ h.keys, h.count i = 0 → i ∈ g.keys

/-- **Merging two G-counters commutes iff they share their zero slots.** -/
theorem merge_comm_iff : g.merge h = h.merge g ↔ ZerosShared g h := by
  constructor
  · intro heq
    have hkeys : ∀ i, i ∈ g.keys ∨ 0 < h.count i ↔ i ∈ h.keys ∨ 0 < g.count i := by
      intro i
      rw [← mem_keys_merge_iff, ← mem_keys_merge_iff, heq]
    constructor
    · intro i hi hzero
      exact ((hkeys i).mp (.inl hi)).resolve_right (by omega)
    · intro i hi hzero
      exact ((hkeys i).mpr (.inl hi)).resolve_right (by omega)
  · rintro ⟨hg, hh⟩
    -- a slot of the left side is counted there, or a slot of the right side
    have hside : ∀ (x y : VectorClock σ), (∀ i ∈ x.keys, x.count i = 0 → i ∈ y.keys) →
        ∀ i, i ∈ x.keys → i ∈ y.keys ∨ 0 < x.count i := by
      intro x y hxy i hi
      rcases Nat.eq_zero_or_pos (x.count i) with hzero | hpos
      · exact .inl (hxy i hi hzero)
      · exact .inr hpos
    have hpos : ∀ (x : VectorClock σ) i, 0 < x.count i → i ∈ x.keys := by
      intro x i hlt
      by_contra hi
      rw [x.count_of_notMem i hi] at hlt
      exact absurd hlt (lt_irrefl 0)
    refine VectorClock.ext ?_ ?_
    · ext i
      rw [mem_keys_merge_iff, mem_keys_merge_iff]
      constructor
      · rintro (hi | hi)
        · exact hside g h hg i hi
        · exact .inl (hpos h i hi)
      · rintro (hi | hi)
        · exact hside h g hh i hi
        · exact .inl (hpos g i hi)
    · rw [VectorClock.count_merge, VectorClock.count_merge, sup_comm]

/-- A counter absorbs what it has taken in. -/
lemma merge_merge_self : (g.merge h).merge h = g.merge h := by
  refine VectorClock.ext ?_ ?_
  · ext i
    rw [mem_keys_merge_iff, mem_keys_merge_iff]
    tauto
  · rw [VectorClock.count_merge, VectorClock.count_merge, sup_assoc, sup_idem]

/-- Both maps of a merged PN-counter are built anew, so that zero slots are dropped on both sides.
-/
lemma PNCounter.merge_comm (a b : PNCounter σ) : a.merge b = b.merge a := by
  have hmap : ∀ x y : VectorClock σ,
      (VectorClock.empty.merge x).merge y = (VectorClock.empty.merge y).merge x := by
    intro x y
    have hpos : ∀ z w : VectorClock σ, ((VectorClock.empty.merge z).merge w).Positive :=
      fun z w => (VectorClock.positive_empty.merge z).merge w
    refine (hpos x y).ext (hpos y x) ?_
    simp only [VectorClock.count_merge, sup_right_comm]
  unfold PNCounter.merge
  rw [hmap, hmap a.n]

/-- A PN-counter absorbs what it has taken in. -/
lemma PNCounter.merge_merge_self (a b : PNCounter σ) : (a.merge b).merge b = a.merge b := by
  have hmap : ∀ x y : VectorClock σ,
      (VectorClock.empty.merge ((VectorClock.empty.merge x).merge y)).merge y =
        (VectorClock.empty.merge x).merge y := by
    intro x y
    simp only [← VectorClock.merge_assoc, merge_empty, Conflict.merge_merge_self]
  unfold PNCounter.merge
  rw [hmap, hmap]

end counters

/-! ### Sets -/

section orset

variable (a b : ORSet σ)

/-- Merging sets commutes, -/
lemma ORSet.merge_comm : a.merge b = b.merge a := by
  refine ORSet.merge_congr (fun el t => ?_) (Finset.union_comm _ _)
  rw [mem_mergedTags, mem_mergedTags, or_comm]

/-- and absorbs. -/
lemma ORSet.merge_merge_self : (a.merge b).merge b = a.merge b := by
  refine ORSet.merge_congr (fun el t => ?_) ?_
  · have hab : (a.merge b).adds.get el = a.mergedTags b el := rfl
    rw [mem_mergedTags, hab, mem_mergedTags, or_assoc, or_self]
  · show a.removes.keys ∪ b.removes.keys ∪ b.removes.keys = a.removes.keys ∪ b.removes.keys
    rw [Finset.union_assoc, Finset.union_self]

end orset

/-! ### Maps -/

section lwwmap

/-- The rank of an entry is all of it. -/
lemma LWWMapEntry.rank_injective : Function.Injective (LWWMapEntry.rank (σ := σ)) := by
  rintro ⟨v, t, n⟩ ⟨v', t', n'⟩ h
  simp only [LWWMapEntry.rank, toLex_inj, Prod.mk.injEq] at h
  obtain ⟨rfl, rfl, rfl⟩ := h
  rfl

/-- The higher entry does not depend on the side. -/
lemma higher_comm (x y : Option (LWWMapEntry σ)) : higher x y = higher y x := by
  cases x with
  | none => rw [higher_none_right]; rfl
  | some x =>
    cases y with
    | none => rfl
    | some y =>
      simp only [higher]
      rcases lt_trichotomy x.rank y.rank with hlt | heq | hlt
      · rw [if_pos hlt, if_neg hlt.not_gt]
      · rw [LWWMapEntry.rank_injective heq]
      · rw [if_pos hlt, if_neg hlt.not_gt]

/-- An entry is the higher one of itself twice. -/
lemma higher_self (x : Option (LWWMapEntry σ)) : higher x x = x := by
  cases x with
  | none => rfl
  | some x => exact if_neg (lt_irrefl x.rank)

variable [Inhabited σ] (a b : LWWMap σ)

/-- Merging maps commutes, -/
lemma LWWMap.merge_comm : a.merge b = b.merge a := by
  refine LWWMap.ext_lookup fun k => ?_
  rw [lookup_merge, lookup_merge, higher_comm]

/-- and absorbs. -/
lemma LWWMap.merge_merge_self : (a.merge b).merge b = a.merge b := by
  refine LWWMap.ext_lookup fun k => ?_
  rw [lookup_merge, lookup_merge, higher_assoc, higher_self]

end lwwmap

/-! ### Sequences -/

/-- Elements with one id have one value and one anchor. -/
def Determined (l : List (RGAElem σ)) : Prop :=
  ∀ x ∈ l, ∀ y ∈ l, x.id = y.id → x.value = y.value ∧ x.after = y.after

instance (l : List (RGAElem σ)) : Decidable (Determined l) := by
  unfold Determined
  infer_instance

/-- What is found under an id, has it, and has the value and the anchor of an element of the
list. -/
lemma exists_of_entryAt {l : List (RGAElem σ)} {i : σ} {e : RGAElem σ} (h : entryAt l i = some e) :
    e.id = i ∧ ∃ x ∈ l, x.id = i ∧ x.value = e.value ∧ x.after = e.after := by
  induction l generalizing e with
  | nil => cases h
  | cons y l ih =>
    rw [entryAt_cons] at h
    by_cases hy : y.id = i
    · rw [if_pos hy] at h
      have hfields : e.id = y.id ∧ y.value = e.value ∧ y.after = e.after := by
        cases hl : entryAt l i <;> rw [hl] at h <;> cases h <;> exact ⟨rfl, rfl, rfl⟩
      exact ⟨hfields.1.trans hy, y, List.mem_cons_self, hy, hfields.2⟩
    · rw [if_neg hy] at h
      obtain ⟨hid, x, hx, hfields⟩ := ih h
      exact ⟨hid, x, List.mem_cons_of_mem y hx, hfields⟩

/-- Combining an element with itself changes nothing. -/
lemma combine_self (x : Option (RGAElem σ)) : combine x x = x := by
  cases x with
  | none => rfl
  | some => simp only [combine, Bool.or_self]

/-- Elements that differ in their deletion only can be combined in either order. -/
lemma combine_comm {x y : Option (RGAElem σ)}
    (h : ∀ e ∈ x, ∀ e' ∈ y, e.id = e'.id ∧ e.value = e'.value ∧ e.after = e'.after) :
    combine x y = combine y x := by
  cases x with
  | none => rw [combine_none_right]; rfl
  | some e =>
    cases y with
    | none => rfl
    | some e' =>
      obtain ⟨hid, hvalue, hafter⟩ := h e rfl e' rfl
      simp only [combine, hid, hvalue, hafter, Bool.or_comm]

/-- Merging sequences commutes if ids determine the elements, -/
lemma RGA.merge_comm {a b : RGA σ} (h : Determined (a.elems ++ b.elems)) :
    a.merge b = b.merge a := by
  refine RGA.merge_congr fun i => combine_comm fun e he e' he' => ?_
  obtain ⟨hid, x, hx, hxi, hxv, hxa⟩ := exists_of_entryAt he
  obtain ⟨hid', y, hy, hyi, hyv, hya⟩ := exists_of_entryAt he'
  obtain ⟨hvalue, hafter⟩ := h x (List.mem_append_left _ hx) y (List.mem_append_right _ hy)
    (hxi.trans hyi.symm)
  exact ⟨hid.trans hid'.symm, hxv.symm.trans (hvalue.trans hyv),
    hxa.symm.trans (hafter.trans hya)⟩

/-- and absorbs in any case. -/
lemma RGA.merge_merge_self (a b : RGA σ) : (a.merge b).merge b = a.merge b := by
  refine RGA.merge_congr fun i => ?_
  rw [(RGA.merge_spec a b).2, combine_assoc, combine_self]

/-! ### Stored values -/

section values

variable [Inhabited σ]

/-- The `crdt_type` of a document. -/
def Doc.crdtType : Doc σ → MergeType
  | .gcounter _ => .gcounter
  | .pncounter _ => .pncounter
  | .orset _ => .orset
  | .lwwmap _ => .lwwmap
  | .rga _ => .rga

/-- The elements of a sequence; other documents have none. -/
def Doc.elems : Doc σ → List (RGAElem σ)
  | .rga r => r.elems
  | _ => []

/-- Two G-counters share their zero slots. -/
def Doc.ZerosShared : Doc σ → Doc σ → Prop
  | .gcounter ⟨some g⟩, .gcounter ⟨some h⟩ => Conflict.ZerosShared g h
  | _, _ => True

/-- **Merging stored values is a join**: it commutes, associates, and absorbs what it has taken
in. -/
structure JoinLaws (a b c : Value σ) : Prop where
  comm : mergedValue a b = mergedValue b a
  /-- `merge(merge(a,b),c) = merge(a,merge(b,c))`. -/
  assoc : MergeResult.merge (mergedValue a b) (some c) =
    MergeResult.merge (some a) (mergedValue b c)
  absorb : MergeResult.merge (mergedValue a b) (some b) = mergedValue a b

/-- Merging documents of one type commutes iff G-counters share their zero slots. -/
lemma mergedValue_comm_iff {a b : Doc σ} (htype : a.crdtType = b.crdtType)
    (hdet : Determined (a.elems ++ b.elems)) (i j : ℕ) :
    mergedValue (.doc a i) (.doc b j) = mergedValue (.doc b j) (.doc a i) ↔ a.ZerosShared b := by
  rcases a with ⟨_ | a⟩ | a | a | a | a <;> rcases b with ⟨_ | b⟩ | b | b | b | b <;> cases htype
  · exact iff_of_true rfl trivial
  · exact iff_of_true rfl trivial
  · exact iff_of_true rfl trivial
  · show some (Value.doc (.gcounter ⟨some (a.merge b)⟩) 0) =
      some (Value.doc (.gcounter ⟨some (b.merge a)⟩) 0) ↔ Conflict.ZerosShared a b
    rw [← merge_comm_iff]
    simp
  all_goals refine iff_of_true ?_ trivial
  · exact congrArg (fun x => some (Value.doc (.pncounter x) 0)) (a.merge_comm b)
  · exact congrArg (fun x => some (Value.doc (.orset x) 0)) (a.merge_comm b)
  · exact congrArg (fun x => some (Value.doc (.lwwmap x) 0)) (a.merge_comm b)
  · exact congrArg (fun x => some (Value.doc (.rga x) 0)) (RGA.merge_comm hdet)

/-- Merging absorbs, for every type of document. -/
lemma mergedValue_absorb (a b : Doc σ) (i j : ℕ) :
    MergeResult.merge (mergedValue (.doc a i) (.doc b j)) (some (.doc b j)) =
      mergedValue (.doc a i) (.doc b j) := by
  rcases a with ⟨_ | a⟩ | a | a | a | a <;> rcases b with ⟨_ | b⟩ | b | b | b | b <;> try rfl
  · exact congrArg (fun x => some (Value.doc (.gcounter ⟨some x⟩) 0)) (merge_merge_self a b)
  · exact congrArg (fun x => some (Value.doc (.pncounter x) 0)) (a.merge_merge_self b)
  · exact congrArg (fun x => some (Value.doc (.orset x) 0)) (a.merge_merge_self b)
  · exact congrArg (fun x => some (Value.doc (.lwwmap x) 0)) (a.merge_merge_self b)
  · exact congrArg (fun x => some (Value.doc (.rga x) 0)) (a.merge_merge_self b)

/-- **Merging is a join exactly on counters that share their zero slots**, and on all documents of
the other types. -/
theorem joinLaws_iff (a b c : Doc σ) (i j k : ℕ) (htype : a.crdtType = b.crdtType)
    (hdet : Determined (a.elems ++ b.elems)) :
    JoinLaws (.doc a i) (.doc b j) (.doc c k) ↔ a.ZerosShared b := by
  rw [← mergedValue_comm_iff htype hdet i j]
  constructor
  · exact fun h => h.comm
  · intro hcomm
    refine ⟨hcomm, ?_, mergedValue_absorb a b i j⟩
    exact MergeResult.merge_assoc (some (.doc a i)) (some (.doc b j)) (some (.doc c k))

/-- A G-counter after one increment. -/
def incremented (nodeID : String) : Doc String :=
  .gcounter ⟨some (VectorClock.empty.increment nodeID)⟩

/-- Two replicas of a G-counter that count a slot each: their values merge as a join. -/
theorem joinLaws_incremented :
    JoinLaws (.doc (incremented "a") 0) (.doc (incremented "b") 0) (.doc (incremented "c") 0) := by
  refine (joinLaws_iff (incremented "a") (incremented "b") (incremented "c") 0 0 0 rfl ?_).mpr ?_
  · exact nofun
  · constructor <;> decide

/-- A G-counter with one slot that counts zero. -/
def zeroSlot : VectorClock String := ⟨{"a"}, fun _ => 0, fun _ _ => rfl⟩

/-- **A zero slot survives a merge from the left only**: the two replicas store different bytes. -/
theorem zeroSlot_not_joinLaws :
    ¬ JoinLaws (.doc (.gcounter ⟨some zeroSlot⟩) 0)
      (.doc (.gcounter ⟨some VectorClock.empty⟩) 0)
      (.doc (.gcounter ⟨some VectorClock.empty⟩) 0) := by
  intro h
  exact absurd h.comm (by decide)

end values

/-! ### What a set reports -/

section elements

variable (a b : ORSet σ)

/-- The elements with a tag that is not marked as removed, in order. Source: `crdt_types.go`
`ORSet.Elements`. -/
def ORSet.elements : List σ :=
  (a.adds.keys.filter fun el => ∃ t ∈ a.adds.get el, a.removes.get t = false).sort (· ≤ ·)

/-- A tag that neither side regards as removed. -/
def ORSet.Live (t : σ) : Prop := a.removes.get t = false ∧ b.removes.get t = false

/-- A set reports an element with a tag that is not marked. -/
lemma ORSet.mem_elements {el : σ} :
    el ∈ a.elements ↔ ∃ t ∈ a.adds.get el, a.removes.get t = false := by
  unfold ORSet.elements
  rw [Finset.mem_sort, Finset.mem_filter]
  refine ⟨fun h => h.2, fun h => ⟨?_, h⟩⟩
  by_contra hel
  obtain ⟨t, ht, -⟩ := h
  rw [a.adds.get_of_notMem el hel] at ht
  cases ht

/-- **A merged set reports** the elements with a tag that neither side lists. -/
theorem ORSet.mem_elements_merge {el : σ} :
    el ∈ (a.merge b).elements ↔ ∃ t, (t ∈ a.adds.get el ∨ t ∈ b.adds.get el) ∧
      t ∉ a.removes.keys ∪ b.removes.keys := by
  have htag : ∀ t, t ∈ (a.merge b).adds.get el ∧ (a.merge b).removes.get t = false ↔
      (t ∈ a.adds.get el ∨ t ∈ b.adds.get el) ∧ t ∉ a.removes.keys ∪ b.removes.keys := by
    intro t
    refine and_congr (mem_mergedTags a b) ?_
    show decide (t ∈ a.removes.keys ∪ b.removes.keys) = false ↔ _
    rw [decide_eq_false_iff_not]
  rw [ORSet.mem_elements]
  exact exists_congr htag

/-- A tag that is listed but not marked as removed is not the last one of its element: the element
has a tag that is not listed. -/
def ORSet.UnmarkedSpared : Prop :=
  ∀ el t, (t ∈ a.adds.get el ∨ t ∈ b.adds.get el) → t ∈ a.removes.keys ∪ b.removes.keys →
    a.Live b t → ∃ t', (t' ∈ a.adds.get el ∨ t' ∈ b.adds.get el) ∧
      t' ∉ a.removes.keys ∪ b.removes.keys

/-- A tag that is not listed is live. -/
lemma ORSet.live_of_notMem {t : σ} (ht : t ∉ a.removes.keys ∪ b.removes.keys) : a.Live b t := by
  rw [Finset.mem_union, not_or] at ht
  exact ⟨a.removes.get_of_notMem t ht.1, b.removes.get_of_notMem t ht.2⟩

/-- **A merged set reports exactly the elements with a live tag iff tags that are listed without a
mark are spared.** -/
theorem elements_merge_exact_iff :
    (∀ el, el ∈ (a.merge b).elements ↔
      ∃ t, (t ∈ a.adds.get el ∨ t ∈ b.adds.get el) ∧ a.Live b t) ↔ a.UnmarkedSpared b := by
  constructor
  · intro h el t ht hlisted hlive
    exact (a.mem_elements_merge b).mp ((h el).mpr ⟨t, ht, hlive⟩)
  · intro h el
    rw [ORSet.mem_elements_merge]
    constructor
    · rintro ⟨t, ht, hnot⟩
      exact ⟨t, ht, a.live_of_notMem b hnot⟩
    · rintro ⟨t, ht, hlive⟩
      by_cases hlisted : t ∈ a.removes.keys ∪ b.removes.keys
      · exact h el t ht hlisted hlive
      · exact ⟨t, ht, hlisted⟩

/-- The empty set. Source: `crdt_types.go` `NewORSet`. -/
def ORSet.new : ORSet σ where
  adds := ⟨∅, fun _ => [], fun _ _ => rfl⟩
  removes := ⟨∅, fun _ => false, fun _ _ => rfl⟩

/-- A set with one element, whose tag is listed as not removed. -/
def unmarked : ORSet String where
  adds := ⟨{"x"}, fun el => if el = "x" then ["t"] else [],
    fun _ hel => if_neg fun h => hel (Finset.mem_singleton.mpr h)⟩
  removes := ⟨{"t"}, fun _ => false, fun _ _ => rfl⟩

/-- **An element is lost by merging with the empty set**: its set reports it, neither side regards
its tag as removed, and the merged set does not report it. -/
theorem unmarked_not_reported :
    unmarked.elements = ["x"] ∧ ¬ ∀ el, el ∈ (unmarked.merge .new).elements ↔
      ∃ t, (t ∈ unmarked.adds.get el ∨ t ∈ ORSet.new.adds.get el) ∧ unmarked.Live .new t := by
  refine ⟨by decide +kernel, fun h => ?_⟩
  have hmem := (h "x").mpr ⟨"t", .inl List.mem_cons_self, rfl, rfl⟩
  exact absurd hmem (by decide +kernel)

end elements

end Replication.Conflict
