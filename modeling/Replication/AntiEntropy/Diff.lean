import Replication.AntiEntropy.Merkle

/-!
# Anti-entropy · Diff: which keys a comparison of trees finds

A comparison finds the keys under which two maps differ, with two exceptions. The empty key is not
recognised as the key of a leaf, so it is never found. And a leaf hashes `key=value` without saying
where the key ends: two different maps can have the same list of leaf texts, and then nothing is
found at all.
-/

namespace Replication.AntiEntropy

open List

open Conflict (GoMap)

/-! ### The empty key -/

lemma ne_empty_of_isLeaf {hash key : String} {left right : Tree}
    (h : (Tree.node hash left right key).isLeaf = true) : key ≠ "" := by
  have hkey : (left.isNil && right.isNil && decide (key ≠ "")) = true := h
  rw [Bool.and_eq_true, decide_eq_true_eq] at hkey
  exact hkey.2

lemma empty_notMem_collectKeySet (t : Tree) {out : Finset String} (h : "" ∉ out) :
    "" ∉ collectKeySet t out := by
  induction t generalizing out with
  | nil => exact h
  | node hash left right key ihl ihr =>
    rw [collectKeySet]
    split_ifs with hleaf
    · rw [Finset.mem_insert, not_or]
      exact ⟨(ne_empty_of_isLeaf hleaf).symm, h⟩
    · exact ihr (ihl h)

/-- A leaf with the empty key has no hash. -/
lemma lookup_collectLeafHashes_empty (t : Tree) :
    lookup (collectLeafHashes t emptyMap) "" = none := by
  rw [lookup_eq_none, keys_collectLeafHashes]
  exact empty_notMem_collectKeySet t (Finset.notMem_empty "")

/-- **Leaf by leaf**, what the leaves below two nodes do not share is found. -/
theorem mem_reconcile (a b : Tree) (diffs : Finset String) (k : String) :
    k ∈ reconcile a b diffs ↔ k ∈ diffs ∨
      lookup (collectLeafHashes a emptyMap) k ≠ lookup (collectLeafHashes b emptyMap) k := by
  unfold reconcile lookup
  simp only [Finset.mem_union, Finset.mem_filter]
  by_cases ha : k ∈ (collectLeafHashes a emptyMap).keys <;>
    by_cases hb : k ∈ (collectLeafHashes b emptyMap).keys <;>
    simp [ha, hb, eq_comm]

/-- **The empty key is never found.** -/
theorem empty_notMem_diffNodes (a b : Tree) {diffs : Finset String} (h : "" ∉ diffs) :
    "" ∉ diffNodes a b diffs := by
  induction a generalizing b diffs with
  | nil =>
    cases b with
    | nil => exact h
    | node => exact empty_notMem_collectKeySet _ h
  | node hash left right key ihl ihr =>
    cases b with
    | nil => exact empty_notMem_collectKeySet _ h
    | node =>
      rw [diffNodes]
      split_ifs
      · exact h
      · exact ihr _ (ihl _ h)
      · rw [mem_reconcile, lookup_collectLeafHashes_empty, lookup_collectLeafHashes_empty]
        simpa using h

/-! ### The branches of a comparison -/

section branches

variable {a b : Tree} (ha : a.isNil = false) (hb : b.isNil = false) (diffs : Finset String)

include ha hb

lemma diffNodes_of_hash_eq (h : a.hash = b.hash) : diffNodes a b diffs = diffs := by
  cases a with
  | nil => cases ha
  | node =>
    cases b with
    | nil => cases hb
    | node => exact if_pos h

lemma diffNodes_of_not_aligned (hne : a.hash ≠ b.hash)
    (h : ¬ (a.isLeaf = false ∧ b.isLeaf = false ∧ sameKeys a b = true)) :
    diffNodes a b diffs = reconcile a b diffs := by
  cases a with
  | nil => cases ha
  | node hash =>
    cases b with
    | nil => cases hb
    | node hash' =>
      rw [diffNodes, if_neg (show hash ≠ hash' from hne), if_neg h]

end branches

lemma sameKeys_iff {a b : Tree} : sameKeys a b = true ↔ collectKeySet a ∅ = collectKeySet b ∅ := by
  unfold sameKeys
  rw [decide_eq_true_eq]
  constructor
  · rintro ⟨hcard, hsub⟩
    exact Finset.eq_of_subset_of_card_le hsub hcard.ge
  · intro h
    rw [h]
    exact ⟨rfl, fun _ hk => hk⟩

section exact

variable {D : Digest}

/-- Two inner nodes with the same keys: both halves are compared. -/
lemma diffNodes_join {l r l' r' : Tree} (diffs : Finset String)
    (hne : (join D l r).hash ≠ (join D l' r').hash) (hl : l.isNil = false)
    (hl' : l'.isNil = false) (hsame : sameKeys (join D l r) (join D l' r') = true) :
    diffNodes (join D l r) (join D l' r') diffs = diffNodes r r' (diffNodes l l' diffs) := by
  have hleaf := isLeaf_join (D := D) (u := r) hl
  have hleaf' := isLeaf_join (D := D) (u := r') hl'
  unfold join at hne hsame hleaf hleaf' ⊢
  rw [diffNodes, if_neg (show D.hash _ ≠ D.hash _ from hne), if_pos ⟨hleaf, hleaf', hsame⟩]

lemma diffNodes_leaf_empty {p q : String × String} (hp : p.1 = "") (hq : q.1 = "")
    (diffs : Finset String) : diffNodes (leaf D p) (leaf D q) diffs = diffs := by
  have hempty : ∀ r : String × String, r.1 = "" →
      (leaf D r).isLeaf = false ∧ collectKeySet (leaf D r) ∅ = ∅ := by
    intro r hr
    simp [leaf, collectKeySet, Tree.isLeaf, Tree.isNil, hr]
  have hsame : sameKeys (leaf D p) (leaf D q) = true := by
    rw [sameKeys_iff, (hempty p hp).2, (hempty q hq).2]
  by_cases hhash : (leaf D p).hash = (leaf D q).hash
  · exact if_pos hhash
  have hbranch := And.intro (hempty p hp).1 (And.intro (hempty q hq).1 hsame)
  unfold leaf at hhash hbranch ⊢
  rw [diffNodes, if_neg (show leafHash D _ _ ≠ leafHash D _ _ from hhash), if_pos hbranch]
  rfl

lemma mem_of_lookup {l : List (String × String)} {k v : String} (h : l.lookup k = some v) :
    (k, v) ∈ l := by
  obtain ⟨l₁, l₂, rfl, -⟩ := lookup_eq_some_iff.mp h
  exact mem_append_right l₁ mem_cons_self

lemma map_leafHash_inj {S : Set String} (hinj : S.InjOn D.hash) {k : String}
    {x y : Option String} (hx : ∀ v ∈ x, line (k, v) ∈ S) (hy : ∀ v ∈ y, line (k, v) ∈ S) :
    x.map (leafHash D k) = y.map (leafHash D k) ↔ x = y := by
  refine ⟨fun h => ?_, fun h => by rw [h]⟩
  cases x with
  | none =>
    cases y with
    | none => rfl
    | some => cases h
  | some v =>
    cases y with
    | none => cases h
    | some w =>
      have heq := hinj (hx v rfl) (hy w rfl) (Option.some.inj h)
      rw [line_left_injective k heq]

lemma mem_reconcile_of_lookup {S : Set String} (hinj : S.InjOn D.hash) {t t' : Tree} {k : String}
    {x y : Option String} (hx : lookup (collectLeafHashes t emptyMap) k =
      if k = "" then none else x.map (leafHash D k))
    (hy : lookup (collectLeafHashes t' emptyMap) k =
      if k = "" then none else y.map (leafHash D k))
    (hxS : ∀ v ∈ x, line (k, v) ∈ S) (hyS : ∀ v ∈ y, line (k, v) ∈ S) (diffs : Finset String) :
    k ∈ reconcile t t' diffs ↔ k ∈ diffs ∨ k ≠ "" ∧ x ≠ y := by
  rw [mem_reconcile, hx, hy]
  refine or_congr_right ?_
  by_cases hk : k = ""
  · simp [hk]
  · rw [if_neg hk, if_neg hk, and_iff_right hk]
    exact not_congr (map_leafHash_inj hinj hxS hyS)

lemma eq_of_lines_eq {l l' : List (String × String)} (hkeys : l.map Prod.fst = l'.map Prod.fst)
    (hlines : l.map line = l'.map line) : l = l' := by
  induction l generalizing l' with
  | nil =>
    cases l' with
    | nil => rfl
    | cons => cases hkeys
  | cons p l ih =>
    cases l' with
    | nil => cases hkeys
    | cons q =>
      simp only [map_cons, List.cons.injEq] at hkeys hlines
      obtain ⟨k, v⟩ := p
      obtain ⟨k', v'⟩ := q
      obtain rfl : k = k' := hkeys.1
      rw [line_left_injective k hlines.1, ih hkeys.2 hlines.2]

lemma lookup_ne_append {l r l' r' : List (String × String)}
    (hkeys : l.map Prod.fst = l'.map Prod.fst) (hnd : ((l ++ r).map Prod.fst).Nodup)
    (hnd' : ((l' ++ r').map Prod.fst).Nodup) (k : String) :
    l.lookup k ≠ l'.lookup k ∨ r.lookup k ≠ r'.lookup k ↔
      (l ++ r).lookup k ≠ (l' ++ r').lookup k := by
  have hnone : l.lookup k = none ↔ l'.lookup k = none := by
    rw [lookup_eq_none_iff_notMem, lookup_eq_none_iff_notMem, hkeys]
  rw [lookup_append, lookup_append]
  cases hleft : l.lookup k with
  | none => simp [hnone.mp hleft]
  | some =>
    cases hleft' : l'.lookup k with
    | none => simp [hnone.mpr hleft'] at hleft
    | some => simp [lookup_eq_none_of_nodup hnd hleft, lookup_eq_none_of_nodup hnd' hleft']

section aligned

variable {S : Set String} {l l' : List (String × String)} {t t' : Tree} {p q : String × String}

/-- Trees with one hash over the same keys hold the same pairs: nothing is reported, and nothing
differs. -/
lemma mem_diffNodes_of_hash_eq (hinj : S.InjOn D.hash) (h : Built D S l t) (h' : Built D S l' t')
    (hkeys : l.map Prod.fst = l'.map Prod.fst) (hhash : t.hash = t'.hash)
    (diffs : Finset String) (k : String) :
    k ∈ diffNodes t t' diffs ↔ k ∈ diffs ∨ k ≠ "" ∧ l.lookup k ≠ l'.lookup k := by
  rw [diffNodes_of_hash_eq h.isNil h'.isNil diffs hhash,
    eq_of_lines_eq hkeys (h.lines_eq hinj h' hhash)]
  simp

/-- Two leaves of one key. -/
lemma mem_diffNodes_leaf (hinj : S.InjOn D.hash) (hkey : p.1 = q.1) (hp : line p ∈ S)
    (hq : line q ∈ S) (diffs : Finset String) (k : String) :
    k ∈ diffNodes (leaf D p) (leaf D q) diffs ↔
      k ∈ diffs ∨ k ≠ "" ∧ [p].lookup k ≠ [q].lookup k := by
  have h : Built D S [p] (leaf D p) := .leaf p hp
  have h' : Built D S [q] (leaf D q) := .leaf q hq
  by_cases hhash : (leaf D p).hash = (leaf D q).hash
  · exact mem_diffNodes_of_hash_eq hinj h h' (congrArg ([·]) hkey) hhash diffs k
  by_cases hempty : p.1 = ""
  · rw [diffNodes_leaf_empty hempty (hkey ▸ hempty), lookup_singleton, lookup_singleton, ← hkey]
    by_cases hk : k = "" <;> simp [hempty, hk]
  · have hleaf : (leaf D p).isLeaf = true := by simp [leaf, Tree.isLeaf, Tree.isNil, hempty]
    rw [diffNodes_of_not_aligned rfl rfl diffs hhash fun h => by
      rw [hleaf] at h
      cases h.1]
    refine mem_reconcile_of_lookup hinj ?_ ?_ (fun v hv => h.line_mem (mem_of_lookup hv))
      (fun v hv => h'.line_mem (mem_of_lookup hv)) diffs
    · rw [lookup_collectLeafHashes_leaf, lookup_emptyMap, Option.or_none]
    · rw [lookup_collectLeafHashes_leaf, lookup_emptyMap, Option.or_none]

/-- **Side by side, over the same keys**, the keys with different values are found. -/
theorem mem_diffNodes_aligned (hinj : S.InjOn D.hash) (h : Aligned D S l t l' t')
    (hkeys : l.map Prod.fst = l'.map Prod.fst) (hnd : (l.map Prod.fst).Nodup)
    (diffs : Finset String) (k : String) :
    k ∈ diffNodes t t' diffs ↔ k ∈ diffs ∨ k ≠ "" ∧ l.lookup k ≠ l'.lookup k := by
  induction h generalizing diffs with
  | leaf p q hp hq => exact mem_diffNodes_leaf hinj (List.cons.inj hkeys).1 hp hq diffs k
  | @join _ _ _ _ t u t' u' htext htext' ht hu iht ihu =>
    have hall := Aligned.join htext htext' ht hu
    by_cases hhash : (join D t u).hash = (join D t' u').hash
    · exact mem_diffNodes_of_hash_eq hinj hall.left hall.right hkeys hhash diffs k
    have hnd' := hkeys ▸ hnd
    have hsame := sameKeys_iff.mpr (Finset.ext fun x => (hall.left.mem_collectKeySet hnd x).trans
      (hkeys ▸ (hall.right.mem_collectKeySet hnd' x).symm))
    have hparts := hkeys
    rw [map_append, map_append] at hparts
    obtain ⟨hl, hr⟩ := append_inj hparts (by rw [length_map, length_map, ht.length_eq])
    have hdisjoint := hnd
    rw [map_append, nodup_append] at hdisjoint
    -- the right halves are compared after the left ones, with what those reported
    rw [diffNodes_join diffs hhash ht.left.isNil ht.right.isNil hsame, ihu hr hdisjoint.2.1,
      iht hl hdisjoint.1, or_assoc, ← and_or_left, lookup_ne_append hl hnd hnd']

end aligned

/-! ### Exactness -/

variable {a b : GoMap String String}

/-- The leaf texts of a map, in the order of the keys. -/
def lines (kv : GoMap String String) : List String := (sortedPairs kv).map line

lemma sortedPairs_eq_nil_iff {kv : GoMap String String} : sortedPairs kv = [] ↔ kv.keys = ∅ := by
  rw [← map_eq_nil_iff (f := Prod.fst), keys_sortedPairs]
  refine ⟨fun h => ?_, fun h => by rw [h, Finset.sort_empty]⟩
  rw [← Finset.sort_toFinset kv.keys (· ≤ ·), h]
  rfl

lemma buildTree_of_ne_empty {kv : GoMap String String} (h : kv.keys ≠ ∅) :
    buildTree D kv = tree D (sortedPairs kv) := if_neg h

lemma buildTree_of_empty {kv : GoMap String String} (h : kv.keys = ∅) :
    buildTree D kv = .node emptyRootHash .nil .nil "" := if_pos h

lemma built_buildTree {S : Set String} {kv : GoMap String String} (h : kv.keys ≠ ∅)
    (hS : ∀ x ∈ hashedTexts D kv, x ∈ S) : Built D S (sortedPairs kv) (buildTree D kv) := by
  rw [buildTree_of_ne_empty h]
  exact built_tree (mt sortedPairs_eq_nil_iff.mp h) hS

section

variable (kv : GoMap String String)

lemma isNil_buildTree : (buildTree D kv).isNil = false := by
  by_cases h : kv.keys = ∅
  · rw [buildTree_of_empty h]
    rfl
  · exact (built_buildTree h fun _ => id).isNil

lemma lookup_collectLeafHashes_buildTree (k : String) :
    lookup (collectLeafHashes (buildTree D kv) emptyMap) k =
      if k = "" then none else (lookup kv k).map (leafHash D k) := by
  by_cases h : kv.keys = ∅
  · have hnone : lookup kv k = none := lookup_eq_none.mpr (h ▸ Finset.notMem_empty k)
    rw [buildTree_of_empty h, hnone, Option.map_none, ite_self]
    exact lookup_emptyMap
  · rw [(built_buildTree h fun _ => id).lookup_collectLeafHashes (nodup_sortedPairs kv),
      lookup_sortedPairs, lookup_emptyMap, Option.or_none]

lemma mem_collectKeySet_buildTree (k : String) :
    k ∈ collectKeySet (buildTree D kv) ∅ ↔ k ≠ "" ∧ k ∈ kv.keys := by
  rw [mem_collectKeySet_iff, lookup_collectLeafHashes_buildTree]
  split_ifs with hk
  · simp [hk]
  · rw [Ne, Option.map_eq_none_iff, lookup_eq_none, not_not, and_iff_right hk]

end

lemma hash_buildTree_of_lines_eq (h : lines a = lines b) :
    (buildTree D a).hash = (buildTree D b).hash := by
  have hnil : a.keys = ∅ ↔ b.keys = ∅ := by
    rw [← sortedPairs_eq_nil_iff, ← sortedPairs_eq_nil_iff, ← map_eq_nil_iff (f := line),
      ← map_eq_nil_iff (f := line) (l := sortedPairs b)]
    exact Eq.congr_left h
  by_cases ha : a.keys = ∅
  · rw [buildTree_of_empty ha, buildTree_of_empty (hnil.mp ha)]
  · rw [buildTree_of_ne_empty ha, buildTree_of_ne_empty (mt hnil.mpr ha)]
    exact (aligned_tree (S := .univ) (by simpa [lines] using congrArg List.length h)
      (mt sortedPairs_eq_nil_iff.mp ha) (fun _ _ => trivial) fun _ _ => trivial).hash_eq h

/-- The digest does not collide on the texts that are hashed for two maps. -/
def NoCollision (D : Digest) (a b : GoMap String String) : Prop :=
  Set.InjOn D.hash {x | x ∈ hashedTexts D a ∨ x ∈ hashedTexts D b}

section

variable (hinj : NoCollision D a b)

include hinj

/-- Equal roots have equal lines. -/
lemma lines_eq_of_hash_buildTree_eq (h : (buildTree D a).hash = (buildTree D b).hash) :
    lines a = lines b := by
  by_cases ha : a.keys = ∅ <;> by_cases hb : b.keys = ∅
  · unfold lines
    rw [sortedPairs_eq_nil_iff.mpr ha, sortedPairs_eq_nil_iff.mpr hb]
  · obtain ⟨s, hs⟩ := (built_buildTree (D := D) hb fun _ => id).exists_hash
    rw [buildTree_of_empty ha, hs] at h
    exact absurd h.symm (hash_ne_emptyRootHash s)
  · obtain ⟨s, hs⟩ := (built_buildTree (D := D) ha fun _ => id).exists_hash
    rw [buildTree_of_empty hb, hs] at h
    exact absurd h (hash_ne_emptyRootHash s)
  · exact (built_buildTree ha fun _ hx => .inl hx).lines_eq hinj
      (built_buildTree hb fun _ hx => .inr hx) h

/-- A reconciliation finds the keys that differ. -/
lemma mem_reconcile_buildTree (k : String) :
    k ∈ reconcile (buildTree D a) (buildTree D b) ∅ ↔ k ≠ "" ∧ lookup a k ≠ lookup b k := by
  have hline : ∀ (kv : GoMap String String), ∀ v ∈ lookup kv k, line (k, v) ∈ hashedTexts D kv :=
    fun kv v hv => mem_append_left _ (mem_map_of_mem (mem_of_lookup (lookup_sortedPairs kv ▸ hv)))
  rw [mem_reconcile_of_lookup hinj (lookup_collectLeafHashes_buildTree a k)
    (lookup_collectLeafHashes_buildTree b k) (fun v hv => .inl (hline a v hv))
    (fun v hv => .inr (hline b v hv)), or_iff_right (Finset.notMem_empty k)]

/-- **What a comparison finds**, if the maps agree under the empty key and their leaf texts tell
them apart. -/
theorem mem_diffNodes_buildTree (hempty : lookup a "" = lookup b "")
    (hlines : lines a = lines b → a = b) (k : String) :
    k ∈ diffNodes (buildTree D a) (buildTree D b) ∅ ↔ k ≠ "" ∧ lookup a k ≠ lookup b k := by
  have ha := isNil_buildTree (D := D) a
  have hb := isNil_buildTree (D := D) b
  by_cases hhash : (buildTree D a).hash = (buildTree D b).hash
  · rw [diffNodes_of_hash_eq ha hb ∅ hhash, hlines (lines_eq_of_hash_buildTree_eq hinj hhash)]
    simp
  by_cases hkeys : a.keys = b.keys
  · -- over the same keys: side by side
    have hne : a.keys ≠ ∅ := fun h => hhash (by
      rw [buildTree_of_empty h, buildTree_of_empty (hkeys ▸ h)])
    have hpairs : (sortedPairs a).map Prod.fst = (sortedPairs b).map Prod.fst := by
      rw [keys_sortedPairs, keys_sortedPairs, hkeys]
    rw [buildTree_of_ne_empty hne, buildTree_of_ne_empty (hkeys ▸ hne),
      mem_diffNodes_aligned hinj (aligned_tree (by simpa using congrArg List.length hpairs)
        (mt sortedPairs_eq_nil_iff.mp hne) (fun _ hx => .inl hx) fun _ hx => .inr hx) hpairs
        (nodup_sortedPairs a), lookup_sortedPairs, lookup_sortedPairs]
    exact or_iff_right (Finset.notMem_empty k)
  · -- over different keys, which are not told apart by the empty key alone: leaf by leaf
    have hsame : sameKeys (buildTree D a) (buildTree D b) ≠ true := by
      rw [Ne, sameKeys_iff]
      intro heq
      refine hkeys (Finset.ext fun x => ?_)
      by_cases hx : x = ""
      · subst hx
        have hnone := lookup_eq_none (m := a) (k := "")
        rw [hempty, lookup_eq_none] at hnone
        exact not_iff_not.mp hnone.symm
      · have hmem := Finset.ext_iff.mp heq x
        rw [mem_collectKeySet_buildTree, mem_collectKeySet_buildTree] at hmem
        simpa [hx] using hmem
    rw [diffNodes_of_not_aligned ha hb ∅ hhash fun h => hsame h.2.2]
    exact mem_reconcile_buildTree hinj k

end

end exact

lemma mem_diff {a b : Tree} {k : String} : k ∈ diff a b ↔ k ∈ diffNodes a b ∅ :=
  Finset.mem_sort _

lemma pairwise_diff (a b : Tree) : (diff a b).Pairwise (· < ·) := by
  have hsorted := Finset.pairwise_sort (diffNodes a b ∅) (· ≤ ·)
  have hnodup := Finset.sort_nodup (diffNodes a b ∅) (· ≤ ·)
  exact (hsorted.and hnodup).imp fun h => lt_of_le_of_ne h.1 h.2

/-- **A comparison of trees is exact iff** the maps agree under the empty key, and differ in their
leaf texts if they differ at all. -/
theorem diff_exact_iff (D : Digest) (a b : GoMap String String) (hinj : NoCollision D a b) :
    ((diff (buildTree D a) (buildTree D b)).Pairwise (· < ·) ∧
        ∀ k, k ∈ diff (buildTree D a) (buildTree D b) ↔ lookup a k ≠ lookup b k) ↔
      lookup a "" = lookup b "" ∧ (lines a = lines b → a = b) := by
  simp only [mem_diff]
  constructor
  · rintro ⟨-, h⟩
    constructor
    · by_contra hne
      exact empty_notMem_diffNodes _ _ (Finset.notMem_empty _) ((h "").mpr hne)
    · intro hlines
      refine ext_lookup fun k => ?_
      by_contra hne
      have hmem := (h k).mpr hne
      rw [diffNodes_of_hash_eq (isNil_buildTree a) (isNil_buildTree b) ∅
        (hash_buildTree_of_lines_eq hlines)] at hmem
      exact Finset.notMem_empty k hmem
  · rintro ⟨hempty, hlines⟩
    refine ⟨pairwise_diff _ _, fun k => ?_⟩
    rw [mem_diffNodes_buildTree hinj hempty hlines]
    refine and_iff_right_of_imp fun hne hk => ?_
    subst hk
    exact hne hempty

/-! ### Small maps -/

/-- A map with one key. -/
def single (key value : String) : GoMap String String := put emptyMap key value

/-- A digest that repeats one digit, chosen by the text. -/
def tagDigest (tag : String → Char) (htag : ∀ s, tag s ∈ hexDigits) : Digest where
  hash s := String.ofList (List.replicate 64 (tag s))
  length_hash s := by simp
  hex s c hc := by
    rw [String.toList_ofList] at hc
    rw [List.eq_of_mem_replicate hc]
    exact htag s

/-- A digest that tells one text from the others. -/
def oneDigest (text : String) : Digest :=
  tagDigest (fun s => if s = text then '1' else '0') fun s => by
    split_ifs <;> decide

section single

variable (D : Digest) (key value : String)

/-- A map with one key has one pair. -/
lemma sortedPairs_single : sortedPairs (single key value) = [(key, value)] := by
  have hkeys : (single key value).keys = {key} := rfl
  unfold sortedPairs
  rw [hkeys, Finset.sort_singleton]
  simp [single, put]

/-- Its tree is a leaf. -/
lemma buildTree_single : buildTree D (single key value) = leaf D (key, value) := by
  have hne : (single key value).keys ≠ ∅ := Finset.singleton_ne_empty key
  rw [buildTree_of_ne_empty hne, sortedPairs_single, tree_singleton]

/-- One text is hashed for it. -/
lemma hashedTexts_single : hashedTexts D (single key value) = [line (key, value)] := by
  unfold hashedTexts texts
  rw [sortedPairs_single, tree_singleton]
  rfl

/-- Nothing is hashed for the empty map. -/
lemma hashedTexts_emptyMap : hashedTexts D emptyMap = [] := by
  unfold hashedTexts texts
  rw [sortedPairs_eq_nil_iff.mpr rfl, tree_nil]
  rfl

/-- What a map with one key holds. -/
lemma lookup_single (k : String) :
    lookup (single key value) k = if k = key then some value else none := by
  unfold single
  rw [lookup_put, lookup_emptyMap]

variable {D key value}

/-- **A changed value is found**, if the digest tells the two leaf texts apart. -/
theorem mem_diff_single {value' : String} (hkey : key ≠ "")
    (hhash : D.hash (line (key, value)) ≠ D.hash (line (key, value'))) (k : String) :
    k ∈ diff (buildTree D (single key value)) (buildTree D (single key value')) ↔ k = key := by
  have hvalue : value ≠ value' := fun h => hhash (h ▸ rfl)
  have hinj : NoCollision D (single key value) (single key value') := by
    unfold NoCollision
    rw [hashedTexts_single, hashedTexts_single]
    rintro x (hx | hx) y (hy | hy) h <;> rw [mem_singleton] at hx hy <;> subst hx hy
    · rfl
    · exact absurd h hhash
    · exact absurd h.symm hhash
    · rfl
  have hlines : lines (single key value) ≠ lines (single key value') := by
    unfold lines
    rw [sortedPairs_single, sortedPairs_single]
    exact fun h => hvalue (line_left_injective key (List.cons.inj h).1)
  rw [mem_diff, mem_diffNodes_buildTree hinj (by simp [lookup_single, hkey.symm])
    fun h => absurd h hlines, lookup_single, lookup_single]
  by_cases hk : k = key
  · simp [hk, hkey, hvalue]
  · simp [hk]

end single

/-- A map with the keys `a` and `b`. -/
def pairMap (value : String) : GoMap String String := put (single "b" value) "a" "1"

/-- A digest that tells the texts of two such maps apart. -/
def pairDigest : Digest :=
  tagDigest (fun s => if s = "a=1" then 'a' else if s = "b=1" then 'b' else if s = "b=2" then 'c'
    else if 'b' ∈ s.toList then 'd' else 'e') fun s => by
    split_ifs <;> decide

/-- The pairs of such a map. -/
lemma sortedPairs_pairMap (value : String) :
    sortedPairs (pairMap value) = [("a", "1"), ("b", value)] := by
  have hkeys : (pairMap value).keys = insert "a" {"b"} := rfl
  unfold sortedPairs
  rw [hkeys, Finset.sort_insert _ (by decide) (by decide), Finset.sort_singleton]
  simp [pairMap, single, put]

/-- Its tree has an inner node over two leaves. -/
lemma hashedTexts_pairMap (D : Digest) (value : String) : hashedTexts D (pairMap value) =
    [line ("a", "1"), line ("b", value), leafHash D "a" "1" ++ leafHash D "b" value] := by
  have htree : tree D [("a", "1"), ("b", value)] =
      join D (leaf D ("a", "1")) (leaf D ("b", value)) := by
    simpa [tree_singleton] using tree_of_two_le D (l := [("a", "1"), ("b", value)]) (by simp)
  unfold hashedTexts texts
  rw [sortedPairs_pairMap, htree]
  rfl

/-- Two maps that differ under the second of their two keys: that one is found, and not the
other. -/
theorem diff_exact_pair :
    "b" ∈ diff (buildTree pairDigest (pairMap "1")) (buildTree pairDigest (pairMap "2")) ∧
      "a" ∉ diff (buildTree pairDigest (pairMap "1")) (buildTree pairDigest (pairMap "2")) := by
  have hinj : NoCollision pairDigest (pairMap "1") (pairMap "2") := by
    have hdistinct : ∀ x ∈ hashedTexts pairDigest (pairMap "1") ++
        hashedTexts pairDigest (pairMap "2"), ∀ y ∈ hashedTexts pairDigest (pairMap "1") ++
          hashedTexts pairDigest (pairMap "2"), pairDigest.hash x = pairDigest.hash y → x = y := by
      rw [hashedTexts_pairMap, hashedTexts_pairMap]
      decide +kernel
    exact fun x hx y hy => hdistinct x (mem_append.mpr hx) y (mem_append.mpr hy)
  have hlines : lines (pairMap "1") ≠ lines (pairMap "2") := by
    unfold lines
    rw [sortedPairs_pairMap, sortedPairs_pairMap]
    decide
  have hexact := (diff_exact_iff pairDigest (pairMap "1") (pairMap "2") hinj).mpr
    ⟨rfl, fun h => absurd h hlines⟩
  rw [hexact.2, hexact.2]
  decide +kernel

/-- **Two different maps with the same leaf text**: for every digest, the comparison finds nothing,
although each key is on one side only. **And values under the empty key are not compared.** -/
theorem diff_misses :
    (lookup (single "a=b" "c") "a" ≠ lookup (single "a" "b=c") "a" ∧
      ∀ D : Digest, diff (buildTree D (single "a=b" "c")) (buildTree D (single "a" "b=c")) = []) ∧
    lookup (single "" "x") "" ≠ lookup (single "" "y") "" ∧
      ∀ D : Digest, diff (buildTree D (single "" "x")) (buildTree D (single "" "y")) = [] := by
  refine ⟨⟨?_, fun D => ?_⟩, ?_, fun D => ?_⟩
  · rw [lookup_single]
    decide
  · have hline : line ("a=b", "c") = line ("a", "b=c") := by decide
    have hhash : (leaf D ("a=b", "c")).hash = (leaf D ("a", "b=c")).hash :=
      congrArg D.hash hline
    unfold diff
    rw [buildTree_single, buildTree_single, diffNodes_of_hash_eq rfl rfl ∅ hhash, Finset.sort_empty]
  · rw [lookup_single, lookup_single]
    decide
  · unfold diff
    rw [buildTree_single, buildTree_single, diffNodes_leaf_empty rfl rfl, Finset.sort_empty]

end Replication.AntiEntropy
