import Mathlib.Algebra.Group.Defs
import Mathlib.Data.Prod.Lex
import Replication.Conflict.CRDT

/-!
# Conflict · Merge: merging is associative

Each of the five merges is associative, on all documents. A merge is neither commutative nor
idempotent in general: a G-counter keeps zero entries of its left side only, a sequence keeps the
left one of two elements with the same id, and merging normalises sets, counters and spellings.
-/

set_option linter.unusedSectionVars false

namespace Replication.Conflict

open Storage List

variable {σ : Type} [LinearOrder σ]

/-! ### Counters -/

/-- The empty clock adds nothing. -/
lemma merge_empty (vc : VectorClock σ) : vc.merge .empty = vc := by
  refine VectorClock.ext ?_ ?_
  · ext i
    rw [VectorClock.mem_keys_merge]
    exact or_iff_left (Nat.not_lt_zero _)
  · rw [VectorClock.count_merge]
    exact sup_eq_left.mpr fun _ => Nat.zero_le _

/-- Merging PN-counters is associative. -/
lemma PNCounter.merge_assoc (a b c : PNCounter σ) : (a.merge b).merge c = a.merge (b.merge c) := by
  have hmap : ∀ x y z : VectorClock σ,
      (VectorClock.empty.merge ((VectorClock.empty.merge x).merge y)).merge z =
        (VectorClock.empty.merge x).merge ((VectorClock.empty.merge y).merge z) := by
    intro x y z
    simp only [← VectorClock.merge_assoc, merge_empty]
  unfold PNCounter.merge
  rw [hmap, hmap]

/-! ### Sets -/

section orset

variable (a b c : ORSet σ)

/-- The tags of both sides. -/
lemma mem_mergedTags {el t : σ} :
    t ∈ a.mergedTags b el ↔ t ∈ a.adds.get el ∨ t ∈ b.adds.get el := by
  unfold ORSet.mergedTags
  rw [mem_insertionSort, mem_dedup, mem_append]

/-- Merged tags are in order, each once. -/
lemma pairwise_mergedTags (el : σ) : (a.mergedTags b el).Pairwise (· < ·) := by
  have hsorted := pairwise_insertionSort (· ≤ ·) (a.adds.get el ++ b.adds.get el).dedup
  have hnodup : (a.mergedTags b el).Nodup :=
    ((perm_insertionSort _ _).nodup_iff).mpr (nodup_dedup _)
  exact (hsorted.and hnodup).imp fun h => lt_of_le_of_ne h.1 h.2

/-- A merged set has an entry for the elements with tags. -/
lemma mem_adds_merge {el : σ} : el ∈ (a.merge b).adds.keys ↔ a.mergedTags b el ≠ [] := by
  constructor
  · exact fun h => (Finset.mem_filter.mp h).2
  · intro h
    by_contra hel
    exact h ((a.merge b).adds.get_of_notMem el hel)

/-- A merged set depends on the sets of tags, added and removed. -/
lemma ORSet.merge_congr {a b a' b' : ORSet σ}
    (htags : ∀ el t, t ∈ a.mergedTags b el ↔ t ∈ a'.mergedTags b' el)
    (hkeys : (a.merge b).removes.keys = (a'.merge b').removes.keys) : a.merge b = a'.merge b' := by
  have hget : ∀ el, a.mergedTags b el = a'.mergedTags b' el := fun el =>
    (pairwise_mergedTags a b el).eq_of_mem_iff (pairwise_mergedTags a' b' el) (htags el)
  have hadds : (a.merge b).adds = (a'.merge b').adds := by
    refine GoMap.ext ?_ (funext hget)
    ext el
    rw [mem_adds_merge, mem_adds_merge, hget]
  have hremoves : (a.merge b).removes = (a'.merge b').removes := by
    refine GoMap.ext hkeys (funext fun t => ?_)
    show decide (t ∈ (a.merge b).removes.keys) = decide (t ∈ (a'.merge b').removes.keys)
    rw [hkeys]
  calc a.merge b = ⟨(a.merge b).adds, (a.merge b).removes⟩ := rfl
    _ = a'.merge b' := by rw [hadds, hremoves]

/-- Merging sets is associative. -/
lemma ORSet.merge_assoc : (a.merge b).merge c = a.merge (b.merge c) := by
  refine ORSet.merge_congr (fun el t => ?_) (Finset.union_assoc _ _ _)
  have hab : (a.merge b).adds.get el = a.mergedTags b el := rfl
  have hbc : (b.merge c).adds.get el = b.mergedTags c el := rfl
  rw [mem_mergedTags, mem_mergedTags, hab, hbc, mem_mergedTags, mem_mergedTags, or_assoc]

end orset

/-! ### Maps -/

section lwwmap

/-- What `lwwMapEntryWins` compares: timestamp, node id, value. -/
def LWWMapEntry.rank (x : LWWMapEntry σ) : ℤ ×ₗ σ ×ₗ σ :=
  toLex (x.timestamp, toLex (x.nodeID, x.value))

/-- **An entry wins iff it ranks higher.** -/
theorem lwwMapEntryWins_iff {x y : LWWMapEntry σ} :
    lwwMapEntryWins x y = true ↔ y.rank < x.rank := by
  unfold lwwMapEntryWins LWWMapEntry.rank
  rw [Prod.Lex.toLex_lt_toLex, Prod.Lex.toLex_lt_toLex]
  split_ifs with ht hn
  · rw [decide_eq_true_eq]
    constructor
    · exact .inl
    · rintro (h | h)
      · exact h
      · exact absurd h.1.symm ht
  · rw [not_not] at ht
    rw [decide_eq_true_eq, ht]
    constructor
    · exact fun h => .inr ⟨rfl, .inl h⟩
    · rintro (h | ⟨-, h | h⟩)
      · exact absurd h (lt_irrefl _)
      · exact h
      · exact absurd h.1.symm hn
  · rw [not_not] at ht hn
    rw [decide_eq_true_eq, ht, hn]
    constructor
    · exact fun h => .inr ⟨rfl, .inr ⟨rfl, h⟩⟩
    · rintro (h | ⟨-, h | h⟩)
      · exact absurd h (lt_irrefl _)
      · exact absurd h (lt_irrefl _)
      · exact h.2

/-- The higher of two optional entries, the first on a tie. -/
def higher : Option (LWWMapEntry σ) → Option (LWWMapEntry σ) → Option (LWWMapEntry σ)
  | none, y => y
  | x, none => x
  | some x, some y => if x.rank < y.rank then some y else some x

/-- Nothing on the right side leaves the left one. -/
lemma higher_none_right (x : Option (LWWMapEntry σ)) : higher x none = x := by
  cases x <;> rfl

/-- Taking the higher entry is associative. -/
lemma higher_assoc (x y z : Option (LWWMapEntry σ)) :
    higher (higher x y) z = higher x (higher y z) := by
  cases x with
  | none => rfl
  | some x =>
    cases y with
    | none => rfl
    | some y =>
      cases z with
      | none => rw [higher_none_right, higher_none_right]
      | some z =>
        simp only [higher]
        rcases lt_or_ge x.rank y.rank with hxy | hxy <;>
          rcases lt_or_ge y.rank z.rank with hyz | hyz
        · simp only [hxy, hyz, hxy.trans hyz, if_true]
        · simp only [hxy, hyz.not_gt, if_true, if_false]
        · simp only [hxy.not_gt, hyz, if_true, if_false]
        · simp only [hxy.not_gt, hyz.not_gt, (hyz.trans hxy).not_gt, if_false]

variable [Inhabited σ]

/-- The entry of a key, if there is one. -/
def LWWMap.lookup (m : LWWMap σ) (k : σ) : Option (LWWMapEntry σ) :=
  if k ∈ m.entries.keys then some (m.entries.get k) else none

/-- The entries determine a map. -/
lemma LWWMap.ext_lookup {m m' : LWWMap σ} (h : ∀ k, m.lookup k = m'.lookup k) : m = m' := by
  have hkeys : m.entries.keys = m'.entries.keys := by
    ext k
    have := h k
    unfold LWWMap.lookup at this
    split_ifs at this with h₁ h₂ h₂
    · exact iff_of_true h₁ h₂
    · exact iff_of_false h₁ h₂
  have hget : m.entries.get = m'.entries.get := by
    funext k
    by_cases hk : k ∈ m.entries.keys
    · have := h k
      unfold LWWMap.lookup at this
      rw [if_pos hk, if_pos (hkeys ▸ hk), Option.some.injEq] at this
      exact this
    · rw [m.entries.get_of_notMem k hk, m'.entries.get_of_notMem k (hkeys ▸ hk)]
  cases m
  cases m'
  rw [LWWMap.mk.injEq]
  exact GoMap.ext hkeys hget

/-- A merged map has the higher entry of every key. -/
lemma LWWMap.lookup_merge (a b : LWWMap σ) (k : σ) :
    (a.merge b).lookup k = higher (a.lookup k) (b.lookup k) := by
  have hkeys : (a.merge b).entries.keys = a.entries.keys ∪ b.entries.keys := rfl
  have hget : (a.merge b).entries.get k =
      if k ∈ b.entries.keys ∧
          (k ∉ a.entries.keys ∨ lwwMapEntryWins (b.entries.get k) (a.entries.get k) = true) then
        b.entries.get k
      else a.entries.get k := rfl
  unfold LWWMap.lookup
  simp only [hkeys, hget, Finset.mem_union, lwwMapEntryWins_iff]
  by_cases ha : k ∈ a.entries.keys <;> by_cases hb : k ∈ b.entries.keys
  · simp only [ha, hb, true_or, if_true, true_and, not_true, false_or, higher]
    split_ifs <;> rfl
  · simp only [ha, hb, true_or, if_true, false_and, if_false, higher]
  · simp only [ha, hb, or_true, not_false_eq_true, true_or, and_self, if_true, if_false, higher]
  · simp only [ha, hb, or_self, if_false, higher]

/-- Merging maps is associative. -/
lemma LWWMap.merge_assoc (a b c : LWWMap σ) : (a.merge b).merge c = a.merge (b.merge c) := by
  refine LWWMap.ext_lookup fun k => ?_
  rw [lookup_merge, lookup_merge, lookup_merge, lookup_merge, higher_assoc]

end lwwmap

/-! ### Sequences -/

/-- One element for what two sides have under an id: the first one, deleted if either is. -/
def combine : Option (RGAElem σ) → Option (RGAElem σ) → Option (RGAElem σ)
  | none, y => y
  | x, none => x
  | some x, some y => some { x with deleted := x.deleted || y.deleted }

/-- Nothing on the right side leaves the left one. -/
lemma combine_none_right (x : Option (RGAElem σ)) : combine x none = x := by
  cases x <;> rfl

/-- Combining is associative. -/
lemma combine_assoc (x y z : Option (RGAElem σ)) :
    combine (combine x y) z = combine x (combine y z) := by
  cases x with
  | none => rfl
  | some =>
    cases y with
    | none => rfl
    | some =>
      cases z with
      | none => rw [combine_none_right, combine_none_right]
      | some => simp only [combine, Bool.or_assoc]

/-- What all elements of a list with an id combine to. -/
def entryAt (l : List (RGAElem σ)) (i : σ) : Option (RGAElem σ) :=
  l.foldl (fun acc e => combine acc (if e.id = i then some e else none)) none

/-- The loop, from any element on. -/
lemma entryAt_foldl (l : List (RGAElem σ)) (i : σ) (acc : Option (RGAElem σ)) :
    l.foldl (fun acc e => combine acc (if e.id = i then some e else none)) acc =
      combine acc (entryAt l i) := by
  unfold entryAt
  induction l generalizing acc with
  | nil => rw [foldl_nil, foldl_nil, combine_none_right]
  | cons e l ih =>
    rw [foldl_cons, foldl_cons, ih, ih (combine none _), combine_assoc]
    rfl

/-- Two parts of a list are combined. -/
lemma entryAt_append (l l' : List (RGAElem σ)) (i : σ) :
    entryAt (l ++ l') i = combine (entryAt l i) (entryAt l' i) := by
  rw [entryAt, foldl_append, entryAt_foldl]
  rfl

/-- The head is combined with the rest. -/
lemma entryAt_cons (e : RGAElem σ) (l : List (RGAElem σ)) (i : σ) :
    entryAt (e :: l) i = combine (if e.id = i then some e else none) (entryAt l i) :=
  entryAt_append [e] l i

/-- Without elements of the id there is nothing. -/
lemma entryAt_eq_none {l : List (RGAElem σ)} {i : σ} (h : ∀ x ∈ l, x.id ≠ i) :
    entryAt l i = none := by
  induction l with
  | nil => rfl
  | cons x l ih =>
    rw [entryAt_cons, if_neg (h x mem_cons_self)]
    exact ih fun y hy => h y (mem_cons_of_mem x hy)

/-- Where ids are unique it is the element with the id. -/
lemma entryAt_eq_some_iff {l : List (RGAElem σ)} (hnd : l.Pairwise fun x y => x.id ≠ y.id)
    {i : σ} {e : RGAElem σ} : entryAt l i = some e ↔ e ∈ l ∧ e.id = i := by
  induction l with
  | nil => simp [entryAt]
  | cons x l ih =>
    obtain ⟨hx, hl⟩ := pairwise_cons.mp hnd
    rw [entryAt_cons, mem_cons]
    by_cases hid : x.id = i
    · -- the rest has nothing under the id of the head
      have hnone : entryAt l i = none := entryAt_eq_none fun y hy => by
        rw [← hid]
        exact (hx y hy).symm
      rw [if_pos hid, hnone, combine_none_right, Option.some.injEq]
      constructor
      · rintro rfl
        exact ⟨.inl rfl, hid⟩
      · rintro ⟨rfl | h, he⟩
        · rfl
        · exact absurd (hid.trans he.symm) (hx e h)
    · rw [if_neg hid]
      show entryAt l i = some e ↔ _
      rw [ih hl]
      constructor
      · exact fun h => ⟨.inr h.1, h.2⟩
      · rintro ⟨rfl | h, he⟩
        · exact absurd he hid
        · exact ⟨h, he⟩

/-- Taking over a deletion at one id. -/
lemma entryAt_map {l : List (RGAElem σ)} (hnd : l.Pairwise fun x y => x.id ≠ y.id)
    {e : RGAElem σ} (hex : ∃ cur ∈ l, cur.id = e.id) (i : σ) :
    entryAt (l.map fun cur =>
        if cur.id = e.id then { cur with deleted := cur.deleted || e.deleted } else cur) i =
      combine (entryAt l i) (if e.id = i then some e else none) := by
  induction l with
  | nil => simp at hex
  | cons x l ih =>
    obtain ⟨hx, hl⟩ := pairwise_cons.mp hnd
    rw [map_cons, entryAt_cons, entryAt_cons, combine_assoc]
    by_cases hxe : x.id = e.id
    · -- only the head has the id
      have hrest : (l.map fun cur =>
          if cur.id = e.id then { cur with deleted := cur.deleted || e.deleted }
            else cur) = l := by
        conv_rhs => rw [← map_id l]
        refine map_congr_left fun y hy => ?_
        rw [if_neg fun hye => hx y hy (hxe.trans hye.symm)]
        rfl
      rw [hrest, if_pos hxe]
      by_cases hi : x.id = i
      · have hnone : entryAt l i = none := entryAt_eq_none fun y hy => by
          rw [← hi]
          exact (hx y hy).symm
        rw [if_pos hi, if_pos hi, hnone, if_pos (hxe ▸ hi)]
        rfl
      · rw [if_neg hi, if_neg hi, if_neg (hxe ▸ hi), combine_none_right]
    · have hex' : ∃ cur ∈ l, cur.id = e.id := by
        obtain ⟨cur, hcur, hid⟩ := hex
        rcases mem_cons.mp hcur with rfl | hcur
        · exact absurd hid hxe
        · exact ⟨cur, hcur, hid⟩
      rw [if_neg hxe, ih hl hex']

/-- One round keeps ids unique and combines the element with what is there. -/
lemma addElem_spec {l : List (RGAElem σ)} (hnd : l.Pairwise fun x y => x.id ≠ y.id)
    (e : RGAElem σ) : (addElem l e).Pairwise (fun x y => x.id ≠ y.id) ∧
      ∀ i, entryAt (addElem l e) i = combine (entryAt l i) (if e.id = i then some e else none) := by
  unfold addElem
  split_ifs with hex
  · refine ⟨?_, entryAt_map hnd hex⟩
    rw [pairwise_map]
    refine hnd.imp fun hne => ?_
    split_ifs <;> exact hne
  · refine ⟨?_, fun i => entryAt_append l [e] i⟩
    rw [pairwise_append]
    refine ⟨hnd, pairwise_singleton _ e, fun x hx y hy => ?_⟩
    rw [mem_singleton.mp hy]
    exact fun heq => hex ⟨x, hx, heq⟩

/-- All rounds combine the lists. -/
lemma foldl_addElem_spec (l acc : List (RGAElem σ)) (hnd : acc.Pairwise fun x y => x.id ≠ y.id) :
    (l.foldl addElem acc).Pairwise (fun x y => x.id ≠ y.id) ∧
      ∀ i, entryAt (l.foldl addElem acc) i = combine (entryAt acc i) (entryAt l i) := by
  induction l generalizing acc with
  | nil => exact ⟨hnd, fun i => (combine_none_right _).symm⟩
  | cons e l ih =>
    obtain ⟨hnd', hadd⟩ := addElem_spec hnd e
    obtain ⟨hnd'', hfold⟩ := ih (addElem acc e) hnd'
    refine ⟨hnd'', fun i => ?_⟩
    rw [foldl_cons, hfold, hadd, combine_assoc, ← entryAt_cons]

instance : Std.Irrefl fun x y : RGAElem σ => x.id < y.id := ⟨fun x => lt_irrefl x.id⟩

instance : Std.Antisymm fun x y : RGAElem σ => x.id < y.id :=
  ⟨fun _ _ h h' => absurd h' h.not_gt⟩

instance : Std.Total fun x y : RGAElem σ => x.id ≤ y.id := ⟨fun x y => le_total x.id y.id⟩

instance : IsTrans (RGAElem σ) fun x y => x.id ≤ y.id := ⟨fun _ _ _ h h' => h.trans h'⟩

/-- Lists in the order of ids are determined by what is under them. -/
lemma eq_of_entryAt {l l' : List (RGAElem σ)} (h : l.Pairwise fun x y => x.id < y.id)
    (h' : l'.Pairwise fun x y => x.id < y.id) (heq : ∀ i, entryAt l i = entryAt l' i) : l = l' := by
  refine h.eq_of_mem_iff h' fun e => ?_
  have hl := entryAt_eq_some_iff (h.imp ne_of_lt) (i := e.id) (e := e)
  have hl' := entryAt_eq_some_iff (h'.imp ne_of_lt) (i := e.id) (e := e)
  rw [heq, hl'] at hl
  simpa only [and_true] using hl.symm

/-- **A merged sequence** is in the order of its ids and combines both sides under every id. -/
theorem RGA.merge_spec (a b : RGA σ) : (a.merge b).elems.Pairwise (fun x y => x.id < y.id) ∧
    ∀ i, entryAt (a.merge b).elems i = combine (entryAt a.elems i) (entryAt b.elems i) := by
  obtain ⟨hnd, hfold⟩ := foldl_addElem_spec (a.elems ++ b.elems) [] List.Pairwise.nil
  have hperm := perm_insertionSort (fun x y : RGAElem σ => x.id ≤ y.id)
    ((a.elems ++ b.elems).foldl addElem [])
  have hsorted := pairwise_insertionSort (fun x y : RGAElem σ => x.id ≤ y.id)
    ((a.elems ++ b.elems).foldl addElem [])
  have hnd' := (hperm.pairwise_iff fun h => h.symm).mpr hnd
  refine ⟨(hsorted.and hnd').imp fun h => lt_of_le_of_ne h.1 h.2, fun i => ?_⟩
  rw [← entryAt_append, ← show _ = entryAt (a.elems ++ b.elems) i from hfold i]
  refine Option.ext fun e => ?_
  exact (entryAt_eq_some_iff hnd').trans
    ((and_congr_left' hperm.mem_iff).trans (entryAt_eq_some_iff hnd).symm)

/-- A merged sequence depends on what both sides combine to. -/
lemma RGA.merge_congr {a b a' b' : RGA σ}
    (h : ∀ i, combine (entryAt a.elems i) (entryAt b.elems i) =
      combine (entryAt a'.elems i) (entryAt b'.elems i)) : a.merge b = a'.merge b' := by
  obtain ⟨hsorted, hentry⟩ := RGA.merge_spec a b
  obtain ⟨hsorted', hentry'⟩ := RGA.merge_spec a' b'
  have helems : (a.merge b).elems = (a'.merge b').elems := by
    refine eq_of_entryAt hsorted hsorted' fun i => ?_
    rw [hentry, hentry', h]
  calc a.merge b = ⟨(a.merge b).elems⟩ := rfl
    _ = a'.merge b' := by rw [helems]

/-- Merging sequences is associative. -/
lemma RGA.merge_assoc (a b c : RGA σ) : (a.merge b).merge c = a.merge (b.merge c) := by
  refine RGA.merge_congr fun i => ?_
  rw [(RGA.merge_spec a b).2, (RGA.merge_spec b c).2, combine_assoc]

/-! ### Values -/

variable [Inhabited σ]

/-- The types of documents that merge. -/
inductive MergeType where
  | gcounter
  | pncounter
  | orset
  | lwwmap
  | rga
  deriving DecidableEq, Repr

/-- The type under which a document merges; a G-counter without its map does not. -/
def Doc.mergeType : Doc σ → Option MergeType
  | .gcounter ⟨some _⟩ => some .gcounter
  | .gcounter ⟨none⟩ => none
  | .pncounter _ => some .pncounter
  | .orset _ => some .orset
  | .lwwmap _ => some .lwwmap
  | .rga _ => some .rga

/-- The type under which a value merges. -/
def Value.mergeType : Value σ → Option MergeType
  | .plain _ => none
  | .doc d _ => d.mergeType

/-- Documents merge iff they have the same type, and to a document of that type. -/
lemma Doc.merge_cases (d d' : Doc σ) :
    (d.merge d' = none ∧ ¬ (d.mergeType = d'.mergeType ∧ d.mergeType ≠ none)) ∨
      ∃ x r, d.merge d' = some (x, r) ∧ d.mergeType = d'.mergeType ∧ d.mergeType ≠ none ∧
        x.mergeType = d.mergeType := by
  rcases d with ⟨_ | g⟩ | a | a | a | a <;> rcases d' with ⟨_ | g'⟩ | b | b | b | b <;>
    simp [Doc.merge, Doc.mergeType]

/-- **Values merge iff they have the same type**, and then to a value of that type. -/
theorem mergeCRDT_cases (v w : Value σ) :
    (mergeCRDT v w = none ∧ ¬ (v.mergeType = w.mergeType ∧ v.mergeType ≠ none)) ∨
      ∃ x r, mergeCRDT v w = some (x, r) ∧ v.mergeType = w.mergeType ∧ v.mergeType ≠ none ∧
        x.mergeType = v.mergeType := by
  cases v with
  | plain bytes => exact .inl ⟨rfl, fun h => h.2 rfl⟩
  | doc d =>
    cases w with
    | plain bytes => exact .inl ⟨rfl, fun h => h.2 h.1⟩
    | doc d' =>
      rcases d.merge_cases d' with ⟨hnone, hne⟩ | ⟨x, r, hsome, heq, hne, hx⟩
      · refine .inl ⟨?_, hne⟩
        rw [mergeCRDT, hnone]
        rfl
      · refine .inr ⟨.doc x 0, r, ?_, heq, hne, hx⟩
        rw [mergeCRDT, hsome]
        rfl

/-- A value without type does not merge. -/
lemma mergeCRDT_eq_none {v w : Value σ} (h : v.mergeType = none) : mergeCRDT v w = none := by
  rcases mergeCRDT_cases v w with hnone | ⟨x, r, -, -, hne, -⟩
  · exact hnone.1
  · exact absurd h hne

/-- What `mergeCRDT` makes of two values. -/
def mergedValue (v w : Value σ) : Option (Value σ) := (mergeCRDT v w).map Prod.fst

/-- The outcome of merges: a value, or nothing where values did not merge. -/
def MergeResult (σ : Type) [Inhabited σ] : Type := Option (Value σ)

namespace MergeResult

/-- Merging outcomes: nothing merges to nothing. -/
def merge (a b : Option (Value σ)) : Option (Value σ) :=
  a.bind fun v => b.bind fun w => mergedValue v w

/-- Nothing on the right side. -/
lemma merge_none_right (a : Option (Value σ)) : merge a none = none := by
  cases a <;> rfl

/-- The outcome of two values, by their types. -/
lemma merge_cases (v w : Value σ) :
    (merge (some v) (some w) = none ∧ ¬ (v.mergeType = w.mergeType ∧ v.mergeType ≠ none)) ∨
      ∃ x, merge (some v) (some w) = some x ∧ v.mergeType = w.mergeType ∧ v.mergeType ≠ none ∧
        x.mergeType = v.mergeType := by
  have hmerge : merge (some v) (some w) = (mergeCRDT v w).map Prod.fst := rfl
  rw [hmerge]
  rcases mergeCRDT_cases v w with ⟨hnone, hne⟩ | ⟨x, r, hsome, hx⟩
  · rw [hnone]
    exact .inl ⟨rfl, hne⟩
  · rw [hsome]
    exact .inr ⟨x, rfl, hx⟩

/-- **Documents of one type merge associatively.** -/
theorem merge_doc_assoc {a b c : Doc σ} (hab : a.mergeType = b.mergeType)
    (hbc : b.mergeType = c.mergeType) (hne : a.mergeType ≠ none) (i j k : ℕ) :
    merge (merge (some (.doc a i)) (some (.doc b j))) (some (.doc c k)) =
      merge (some (.doc a i)) (merge (some (.doc b j)) (some (.doc c k))) := by
  rcases a with ⟨_ | a⟩ | a | a | a | a <;> rcases b with ⟨_ | b⟩ | b | b | b | b <;> cases hab <;>
    rcases c with ⟨_ | c⟩ | c | c | c | c <;> cases hbc
  · exact absurd rfl hne
  · exact congrArg (fun x => some (Value.doc (.gcounter ⟨some x⟩) 0)) (a.merge_assoc b c)
  · exact congrArg (fun x => some (Value.doc (.pncounter x) 0)) (a.merge_assoc b c)
  · exact congrArg (fun x => some (Value.doc (.orset x) 0)) (a.merge_assoc b c)
  · exact congrArg (fun x => some (Value.doc (.lwwmap x) 0)) (a.merge_assoc b c)
  · exact congrArg (fun x => some (Value.doc (.rga x) 0)) (a.merge_assoc b c)

/-- **Merging is associative**, where values that do not merge give nothing. -/
theorem merge_assoc (a b c : Option (Value σ)) : merge (merge a b) c = merge a (merge b c) := by
  cases a with
  | none => rfl
  | some v =>
    cases b with
    | none => rfl
    | some w =>
      cases c with
      | none => rw [merge_none_right, merge_none_right, merge_none_right]
      | some x =>
        rcases merge_cases v w with ⟨hvw, hne⟩ | ⟨y, hvw, hvw', hv, hy⟩
        · -- nothing on the left, and a merge on the right has the type of `w`
          rw [hvw]
          rcases merge_cases w x with ⟨hwx, -⟩ | ⟨z, hwx, -, -, hz⟩
          · rw [hwx, merge_none_right]
            rfl
          rw [hwx]
          rcases merge_cases v z with ⟨hvz, -⟩ | ⟨u, -, hvz, hv, -⟩
          · exact hvz.symm
          · exact absurd ⟨hvz.trans hz, hv⟩ hne
        · rcases merge_cases w x with ⟨hwx, hne⟩ | ⟨z, hwx, hwx', hw, hz⟩
          · rw [hvw, hwx, merge_none_right]
            rcases merge_cases y x with ⟨hyx, -⟩ | ⟨u, -, hyx, -, -⟩
            · exact hyx
            · exact absurd ⟨hvw'.symm.trans (hy.symm.trans hyx), hvw' ▸ hv⟩ hne
          · cases v with
            | plain => exact absurd rfl hv
            | doc a i =>
              cases w with
              | plain => exact absurd rfl hw
              | doc b j =>
                cases x with
                | plain => exact absurd hwx' hw
                | doc c k => exact merge_doc_assoc hvw' hwx' hv i j k

instance : Semigroup (MergeResult σ) where
  mul := merge
  mul_assoc := merge_assoc

/-- A value as an outcome. -/
def of (v : Value σ) : MergeResult σ := (some v : Option (Value σ))

/-- Different values are different outcomes. -/
lemma of_injective : Function.Injective (of : Value σ → MergeResult σ) :=
  fun _ _ h => Option.some.inj h

/-- The product of two values is their merge. -/
lemma of_mul_of {v w x : Value σ} (h : mergedValue v w = some x) : of v * of w = of x := h

/-- Values that commute as merges commute as outcomes. -/
lemma of_mul_comm {v w : Value σ} (h : mergedValue v w = mergedValue w v) :
    of v * of w = of w * of v := h

/-- A product that is a value has values as factors. -/
lemma exists_of_mul_eq {a b : MergeResult σ} {x : Value σ} (h : a * b = of x) :
    ∃ v w, a = of v ∧ b = of w ∧ mergedValue v w = some x := by
  obtain ⟨v, hv, hb⟩ := Option.bind_eq_some_iff.mp (show merge a b = some x from h)
  obtain ⟨w, hw, hvw⟩ := Option.bind_eq_some_iff.mp hb
  exact ⟨v, w, hv, hw, hvw⟩

end MergeResult

end Replication.Conflict
