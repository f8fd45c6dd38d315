import Mathlib.Data.Finset.Sort
import Mathlib.Data.Set.Function
import Mathlib.Data.String.Basic
import Replication.Conflict.CRDT

/-!
# Anti-entropy · Merkle: trees over string maps

`internal/antientropy/merkle.go`. A map is turned into a balanced tree over its sorted keys; a leaf
hashes the text `key=value`, an inner node the texts of its children's hashes one after the other.
Two trees are compared from the root: equal hashes are skipped, trees over the same keys are
compared side by side, and anything else is compared leaf by leaf.

SHA-256 in hexadecimal is any function to 64 hexadecimal digits (`Digest`). It cannot be injective;
what is asked of it is that it does not collide on the texts that are hashed (`hashedTexts`).

* `Tree`, `buildTree`, `diff` — the source's types and functions.
-/

namespace Replication.AntiEntropy

open List

open Conflict (GoMap)

/-- The digits of `hex.EncodeToString`. -/
def hexDigits : List Char := "0123456789abcdef".toList

/-- A digest in hexadecimal. Source: `merkle.go` `hashString`. -/
structure Digest where
  hash : String → String
  length_hash : ∀ s, (hash s).length = 64
  hex : ∀ s, ∀ c ∈ (hash s).toList, c ∈ hexDigits

/-- Source: `merkle.go` `emptyRootHash`. -/
def emptyRootHash : String :=
  "empty:0000000000000000000000000000000000000000000000000000000000000000"

/-- A node, or `nil`. Source: `merkle.go` `Node`. -/
inductive Tree where
  | nil
  | node (hash : String) (left right : Tree) (key : String)

/-- The hash at the root. -/
def Tree.hash : Tree → String
  | .nil => ""
  | .node hash _ _ _ => hash

/-- Whether there is no tree. -/
def Tree.isNil : Tree → Bool
  | .nil => true
  | .node _ _ _ _ => false

/-- The line that is hashed for a pair. -/
def line (p : String × String) : String := p.1 ++ "=" ++ p.2

section build

variable (D : Digest)

/-- Source: `merkle.go` `leafHash`. -/
def leafHash (key value : String) : String := D.hash (line (key, value))

/-- A leaf. Source: `merkle.go` `BuildTree`. -/
def leaf (p : String × String) : Tree := .node (leafHash D p.1 p.2) .nil .nil p.1

/-- An inner node. Source: `merkle.go` `buildLevel`. -/
def join (left right : Tree) : Tree := .node (D.hash (left.hash ++ right.hash)) left right ""

/-- The nodes are split in the middle. Only called with nodes. Source: `merkle.go` `buildLevel`. -/
def buildLevel : List Tree → Tree
  | [] => .nil
  | [n] => n
  | a :: b :: rest =>
    let mid := (a :: b :: rest).length / 2
    join D (buildLevel ((a :: b :: rest).take mid)) (buildLevel ((a :: b :: rest).drop mid))
termination_by nodes => nodes.length
decreasing_by
  · simp only [List.length_take, List.length_cons]
    omega
  · simp only [List.length_drop, List.length_cons]
    omega

/-- The keys of a map with their values, in the order of the keys. -/
def sortedPairs (kv : GoMap String String) : List (String × String) :=
  (kv.keys.sort (· ≤ ·)).map fun k => (k, kv.get k)

/-- Source: `merkle.go` `BuildTree`. -/
def buildTree (kv : GoMap String String) : Tree :=
  if kv.keys = ∅ then .node emptyRootHash .nil .nil ""
  else buildLevel D ((sortedPairs kv).map (leaf D))

end build

/-! ### Comparing two trees -/

/-- A leaf with a key; the empty root is none. Source: `merkle.go` `isLeaf`. -/
def Tree.isLeaf : Tree → Bool
  | .nil => false
  | .node _ left right key => left.isNil && right.isNil && key ≠ ""

/-- Add the keys of the leaves. Source: `merkle.go` `collectKeySet`. -/
def collectKeySet : Tree → Finset String → Finset String
  | .nil, out => out
  | .node hash left right key, out =>
    if (Tree.node hash left right key).isLeaf then insert key out
    else collectKeySet right (collectKeySet left out)

/-- The same loop, into the differences. Source: `merkle.go` `collectLeaves`. -/
def collectLeaves (n : Tree) (diffs : Finset String) : Finset String := collectKeySet n diffs

/-- Set a key of a map. -/
def put (m : GoMap String String) (key value : String) : GoMap String String where
  keys := insert key m.keys
  get := Function.update m.get key value
  get_of_notMem k hk := by
    rw [Finset.mem_insert, not_or] at hk
    rw [Function.update_of_ne hk.1]
    exact m.get_of_notMem k hk.2

/-- The map without keys. -/
def emptyMap : GoMap String String := ⟨∅, fun _ => default, fun _ _ => rfl⟩

/-- Add the hashes of the leaves under their keys. Source: `merkle.go` `collectLeafHashes`. -/
def collectLeafHashes : Tree → GoMap String String → GoMap String String
  | .nil, out => out
  | .node hash left right key, out =>
    if (Tree.node hash left right key).isLeaf then put out key hash
    else collectLeafHashes right (collectLeafHashes left out)

/-- Source: `merkle.go` `sameKeys`. -/
def sameKeys (a b : Tree) : Bool :=
  (collectKeySet a ∅).card = (collectKeySet b ∅).card ∧
    ∀ k ∈ collectKeySet a ∅, k ∈ collectKeySet b ∅

/-- Compare the leaves by key. Source: `merkle.go` `reconcile`. -/
def reconcile (a b : Tree) (diffs : Finset String) : Finset String :=
  let aLeaves := collectLeafHashes a emptyMap
  let bLeaves := collectLeafHashes b emptyMap
  diffs ∪ (aLeaves.keys.filter fun k => k ∉ bLeaves.keys ∨ bLeaves.get k ≠ aLeaves.get k) ∪
    bLeaves.keys.filter fun k => k ∉ aLeaves.keys

/-- Source: `merkle.go` `diffNodes`. -/
def diffNodes : Tree → Tree → Finset String → Finset String
  | .nil, .nil, diffs => diffs
  | .nil, .node hash left right key, diffs => collectLeaves (.node hash left right key) diffs
  | .node hash left right key, .nil, diffs => collectLeaves (.node hash left right key) diffs
  | .node hash left right key, .node hash' left' right' key', diffs =>
    if hash = hash' then diffs
    else if (Tree.node hash left right key).isLeaf = false ∧
        (Tree.node hash' left' right' key').isLeaf = false ∧
        sameKeys (.node hash left right key) (.node hash' left' right' key') = true then
      diffNodes right right' (diffNodes left left' diffs)
    else reconcile (.node hash left right key) (.node hash' left' right' key') diffs

/-- The keys that differ, in order. Source: `merkle.go` `Diff`. -/
def diff (a b : Tree) : List String := (diffNodes a b ∅).sort (· ≤ ·)

/-! ### Maps -/

/-- The value of a key that is there. -/
def lookup (m : GoMap String String) (k : String) : Option String :=
  if k ∈ m.keys then some (m.get k) else none

section maps

variable {m : GoMap String String} {k : String}

lemma lookup_emptyMap : lookup emptyMap k = none := if_neg (Finset.notMem_empty k)

lemma lookup_put (key value : String) :
    lookup (put m key value) k = if k = key then some value else lookup m k := by
  have hkeys : (put m key value).keys = insert key m.keys := rfl
  have hget : (put m key value).get k = Function.update m.get key value k := rfl
  unfold lookup
  rw [hget]
  simp only [hkeys, Finset.mem_insert]
  by_cases hk : k = key
  · subst hk
    simp
  · simp [hk]

lemma lookup_eq_none : lookup m k = none ↔ k ∉ m.keys := by
  unfold lookup
  split_ifs with hk <;> simp [hk]

lemma ext_lookup {m' : GoMap String String} (h : ∀ k, lookup m k = lookup m' k) : m = m' := by
  have hkeys : m.keys = m'.keys := by
    ext k
    have := lookup_eq_none (m := m) (k := k)
    rw [h k, lookup_eq_none] at this
    exact not_iff_not.mp this.symm
  refine GoMap.ext hkeys (funext fun k => ?_)
  by_cases hk : k ∈ m.keys
  · have := h k
    unfold lookup at this
    rw [if_pos hk, if_pos (hkeys ▸ hk), Option.some.injEq] at this
    exact this
  · rw [m.get_of_notMem k hk, m'.get_of_notMem k (hkeys ▸ hk)]

lemma keys_sortedPairs (kv : GoMap String String) :
    (sortedPairs kv).map Prod.fst = kv.keys.sort (· ≤ ·) := by
  unfold sortedPairs
  rw [map_map]
  exact map_id _

lemma nodup_sortedPairs (kv : GoMap String String) : ((sortedPairs kv).map Prod.fst).Nodup := by
  rw [keys_sortedPairs]
  exact Finset.sort_nodup _ _

lemma lookup_eq_none_iff_notMem {l : List (String × String)} :
    l.lookup k = none ↔ k ∉ l.map Prod.fst := by
  rw [lookup_eq_none_iff, mem_map]
  simp only [bne_iff_ne, ne_eq]
  exact ⟨fun h ⟨p, hp, heq⟩ => h p hp heq.symm, fun h p hp heq => h ⟨p, hp, heq.symm⟩⟩

lemma mem_keys_of_lookup {l : List (String × String)} {v : String} (h : l.lookup k = some v) :
    k ∈ l.map Prod.fst := by
  by_contra hk
  simp [lookup_eq_none_iff_notMem.mpr hk] at h

lemma lookup_singleton (p : String × String) :
    [p].lookup k = if k = p.1 then some p.2 else none := by
  by_cases hk : k = p.1
  · subst hk
    rw [if_pos rfl]
    exact lookup_cons_self
  · rw [if_neg hk, lookup_eq_none_iff_notMem]
    simpa using hk

lemma lookup_eq_none_of_nodup {l r : List (String × String)} {v : String}
    (hnd : ((l ++ r).map Prod.fst).Nodup) (h : l.lookup k = some v) : r.lookup k = none := by
  rw [lookup_eq_none_iff_notMem]
  rw [map_append, nodup_append] at hnd
  exact fun hmem => hnd.2.2 k (mem_keys_of_lookup h) k hmem rfl

lemma lookup_sortedPairs (kv : GoMap String String) : (sortedPairs kv).lookup k = lookup kv k := by
  unfold lookup
  split_ifs with hk
  · exact lookup_graph kv.get ((Finset.mem_sort _).mpr hk)
  · rwa [lookup_eq_none_iff_notMem, keys_sortedPairs, Finset.mem_sort]

end maps

/-! ### Trees over pairs -/

/-- The texts that the inner nodes of a tree hash. -/
def Tree.joined : Tree → List String
  | .nil => []
  | .node _ left right _ =>
    if left.isNil && right.isNil then []
    else (left.hash ++ right.hash) :: (left.joined ++ right.joined)

/-- The balanced tree over a list of pairs. -/
def tree (D : Digest) (l : List (String × String)) : Tree := buildLevel D (l.map (leaf D))

/-- The texts that are hashed when the tree over a list is built. -/
def texts (D : Digest) (l : List (String × String)) : List String :=
  l.map line ++ (tree D l).joined

/-- The texts that are hashed when the tree of a map is built. -/
def hashedTexts (D : Digest) (kv : GoMap String String) : List String := texts D (sortedPairs kv)

/-- A tree over a list of pairs, of whatever shape; what is hashed for it is in `S`. -/
inductive Built (D : Digest) (S : Set String) : List (String × String) → Tree → Prop
  | leaf (p : String × String) (hp : line p ∈ S) : Built D S [p] (leaf D p)
  | join {l r : List (String × String)} {t u : Tree} (htext : t.hash ++ u.hash ∈ S)
      (ht : Built D S l t) (hu : Built D S r u) : Built D S (l ++ r) (join D t u)

/-- Trees of one shape over two lists. -/
inductive Aligned (D : Digest) (S : Set String) :
    List (String × String) → Tree → List (String × String) → Tree → Prop
  | leaf (p q : String × String) (hp : line p ∈ S) (hq : line q ∈ S) :
      Aligned D S [p] (leaf D p) [q] (leaf D q)
  | join {l r l' r' : List (String × String)} {t u t' u' : Tree} (htext : t.hash ++ u.hash ∈ S)
      (htext' : t'.hash ++ u'.hash ∈ S) (ht : Aligned D S l t l' t') (hu : Aligned D S r u r' u') :
      Aligned D S (l ++ r) (join D t u) (l' ++ r') (join D t' u')

section tree

variable {D : Digest} {S : Set String} {l l' : List (String × String)} {t t' u : Tree}

lemma tree_nil : tree D [] = .nil := by
  unfold tree
  rw [map_nil, buildLevel]

lemma tree_singleton (p : String × String) : tree D [p] = leaf D p := by
  unfold tree
  rw [map_cons, map_nil, buildLevel]

/-- A list is cut in the middle. -/
lemma tree_of_two_le (D : Digest) (h : 2 ≤ l.length) :
    tree D l = join D (tree D (l.take (l.length / 2))) (tree D (l.drop (l.length / 2))) := by
  obtain ⟨p, q, rest, rfl⟩ : ∃ p q rest, l = p :: q :: rest := by
    match l, h with
    | p :: q :: rest, _ => exact ⟨p, q, rest, rfl⟩
  unfold tree
  rw [map_cons, map_cons, buildLevel, ← map_cons, ← map_cons, map_take, map_drop, length_map]

lemma tree_ne_nil (h : l ≠ []) : (tree D l).isNil = false := by
  match l, h with
  | [p], _ => rw [tree_singleton]; rfl
  | p :: q :: rest, _ =>
    rw [tree_of_two_le D (show 2 ≤ (p :: q :: rest).length by simp)]
    rfl

/-- What is hashed for a tree is hashed for its halves, and for the node above them. -/
lemma forall_texts_halves (h : 2 ≤ l.length) (hS : ∀ x ∈ texts D l, x ∈ S) :
    (tree D (l.take (l.length / 2))).hash ++ (tree D (l.drop (l.length / 2))).hash ∈ S ∧
      (∀ x ∈ texts D (l.take (l.length / 2)), x ∈ S) ∧
      ∀ x ∈ texts D (l.drop (l.length / 2)), x ∈ S := by
  have hleft : l.take (l.length / 2) ≠ [] := by
    refine ne_nil_of_length_pos ?_
    rw [length_take]
    omega
  have hlines : l.map line =
      (l.take (l.length / 2)).map line ++ (l.drop (l.length / 2)).map line := by
    rw [← map_append, take_append_drop]
  unfold texts at hS ⊢
  rw [tree_of_two_le D h, join, Tree.joined, tree_ne_nil hleft, hlines] at hS
  simp only [mem_append, mem_cons, Bool.false_and, Bool.false_eq_true, if_false] at hS ⊢
  exact ⟨hS _ (by tauto), fun x hx => hS x (by tauto), fun x hx => hS x (by tauto)⟩

/-- **The trees over two lists of one length** have one shape. -/
theorem aligned_tree (hlen : l.length = l'.length) (hne : l ≠ []) (hS : ∀ x ∈ texts D l, x ∈ S)
    (hS' : ∀ x ∈ texts D l', x ∈ S) : Aligned D S l (tree D l) l' (tree D l') := by
  have hpos := length_pos_of_ne_nil hne
  induction hn : l.length using Nat.strong_induction_on generalizing l l' with
  | _ n ih =>
    rcases Nat.lt_or_ge l.length 2 with hlt | h2
    · obtain ⟨p, rfl⟩ := length_eq_one_iff.mp (show l.length = 1 by omega)
      obtain ⟨q, rfl⟩ := length_eq_one_iff.mp hlen.symm
      rw [tree_singleton, tree_singleton]
      exact .leaf p q (hS _ (by simp [texts])) (hS' _ (by simp [texts]))
    have hsplit : ∀ {l : List (String × String)} {i : ℕ}, i < l.length → l.drop i ≠ [] :=
      fun h => mt drop_eq_nil_iff.mp (by omega)
    obtain ⟨htext, hSl, hSr⟩ := forall_texts_halves h2 hS
    obtain ⟨htext', hSl', hSr'⟩ := forall_texts_halves (hlen ▸ h2) hS'
    have hl := ih _ (by rw [length_take]; omega) (l := l.take (l.length / 2))
      (by rw [length_take, length_take, hlen]) (ne_nil_of_length_pos (by rw [length_take]; omega))
      hSl hSl' (by rw [length_take]; omega) rfl
    have hr := ih _ (by rw [length_drop]; omega) (l := l.drop (l.length / 2))
      (by rw [length_drop, length_drop, hlen]) (hsplit (by omega))
      hSr hSr' (by rw [length_drop]; omega) rfl
    have h := Aligned.join htext htext' hl hr
    rwa [take_append_drop, take_append_drop, ← tree_of_two_le D h2,
      ← tree_of_two_le D (hlen ▸ h2)] at h

lemma Aligned.left (h : Aligned D S l t l' t') : Built D S l t := by
  induction h with
  | leaf p q hp => exact .leaf p hp
  | join htext _ _ _ iht ihu => exact .join htext iht ihu

lemma Aligned.right (h : Aligned D S l t l' t') : Built D S l' t' := by
  induction h with
  | leaf p q _ hq => exact .leaf q hq
  | join _ htext' _ _ iht ihu => exact .join htext' iht ihu

lemma Aligned.length_eq (h : Aligned D S l t l' t') : l.length = l'.length := by
  induction h with
  | leaf => rfl
  | join _ _ _ _ iht ihu => rw [length_append, length_append, iht, ihu]

/-- The tree of a list is built from it. -/
lemma built_tree (hne : l ≠ []) (hS : ∀ x ∈ texts D l, x ∈ S) : Built D S l (tree D l) :=
  (aligned_tree rfl hne hS hS).left

namespace Built

lemma isNil (h : Built D S l t) : t.isNil = false := by
  cases h <;> rfl

lemma exists_hash (h : Built D S l t) : ∃ s, t.hash = D.hash s := by
  cases h with
  | leaf p => exact ⟨line p, rfl⟩
  | join => exact ⟨_, rfl⟩

lemma line_mem (h : Built D S l t) {p : String × String} (hp : p ∈ l) : line p ∈ S := by
  induction h with
  | leaf q hq => rwa [mem_singleton.mp hp]
  | join _ _ _ iht ihu => exact (mem_append.mp hp).elim iht ihu

end Built

lemma isLeaf_join (h : t.isNil = false) : (join D t u).isLeaf = false := by
  show (t.isNil && u.isNil && decide ("" ≠ "")) = false
  rw [h]
  rfl

lemma collectLeafHashes_join (h : t.isNil = false) (out : GoMap String String) :
    collectLeafHashes (join D t u) out = collectLeafHashes u (collectLeafHashes t out) := by
  have hleaf := isLeaf_join (D := D) (u := u) h
  unfold join at hleaf ⊢
  rw [collectLeafHashes, hleaf]
  rfl

/-- A leaf adds its hash, unless its key is empty. -/
lemma lookup_collectLeafHashes_leaf (p : String × String) (out : GoMap String String)
    (k : String) :
    lookup (collectLeafHashes (leaf D p) out) k =
      if k = "" then lookup out k
      else (([p].lookup k).map (leafHash D k)).or (lookup out k) := by
  have hout : collectLeafHashes (leaf D p) out =
      if p.1 ≠ "" then put out p.1 (leafHash D p.1 p.2) else out := by
    simp [leaf, collectLeafHashes, Tree.isLeaf, Tree.isNil]
  rw [hout, lookup_singleton]
  by_cases hp : p.1 = ""
  · by_cases hk : k = "" <;> simp [hp, hk]
  · rw [if_pos hp, lookup_put]
    by_cases hk : k = p.1 <;> simp [hk, hp]

/-- The hashes of the leaves below a node. -/
lemma Built.lookup_collectLeafHashes (h : Built D S l t) (hnd : (l.map Prod.fst).Nodup)
    (out : GoMap String String) (k : String) :
    lookup (collectLeafHashes t out) k =
      if k = "" then lookup out k
      else ((l.lookup k).map (leafHash D k)).or (lookup out k) := by
  induction h generalizing out with
  | leaf p => exact lookup_collectLeafHashes_leaf p out k
  | @join l r t u _ ht _ iht ihu =>
    have hparts := hnd
    rw [map_append, nodup_append] at hparts
    rw [collectLeafHashes_join ht.isNil, ihu hparts.2.1, iht hparts.1]
    split_ifs with hk
    · rfl
    rw [lookup_append]
    cases hleft : l.lookup k with
    | none => simp
    | some => simp [lookup_eq_none_of_nodup hnd hleft]

/-- The two loops over the leaves meet the same keys. -/
lemma keys_collectLeafHashes (t : Tree) (out : GoMap String String) :
    (collectLeafHashes t out).keys = collectKeySet t out.keys := by
  induction t generalizing out with
  | nil => rfl
  | node hash left right key ihl ihr =>
    rw [collectLeafHashes, collectKeySet]
    split_ifs
    · rfl
    · rw [ihr, ihl]

lemma mem_collectKeySet_iff {k : String} :
    k ∈ collectKeySet t ∅ ↔ lookup (collectLeafHashes t emptyMap) k ≠ none := by
  rw [Ne, lookup_eq_none, not_not, keys_collectLeafHashes]
  rfl

/-- The keys below a node. -/
lemma Built.mem_collectKeySet (h : Built D S l t) (hnd : (l.map Prod.fst).Nodup) (k : String) :
    k ∈ collectKeySet t ∅ ↔ k ≠ "" ∧ k ∈ l.map Prod.fst := by
  rw [mem_collectKeySet_iff, h.lookup_collectLeafHashes hnd, lookup_emptyMap, Option.or_none]
  split_ifs with hk
  · simp [hk]
  · rw [Ne, Option.map_eq_none_iff, lookup_eq_none_iff_notMem, not_not, and_iff_right hk]

end tree

/-! ### What a hash stands for -/

section texts

variable {D : Digest} {S : Set String} {l l' : List (String × String)} {t t' : Tree}

lemma mem_line (p : String × String) : '=' ∈ (line p).toList := by
  unfold line
  simp

/-- A line is not the text of an inner node. -/
lemma line_ne_append (p : String × String) (s t : String) : line p ≠ D.hash s ++ D.hash t := by
  intro heq
  have hmem := mem_line p
  rw [heq, String.toList_append, mem_append] at hmem
  rcases hmem with hmem | hmem
  · exact absurd (D.hex s _ hmem) (by decide)
  · exact absurd (D.hex t _ hmem) (by decide)

lemma hash_ne_emptyRootHash (s : String) : D.hash s ≠ emptyRootHash := by
  intro heq
  have hmem : ':' ∈ (D.hash s).toList := by
    rw [heq]
    decide
  exact absurd (D.hex s _ hmem) (by decide)

/-- Hashes have one length, so two of them can be told apart. -/
lemma hash_append_inj {s t s' t' : String} (h : D.hash s ++ D.hash t = D.hash s' ++ D.hash t') :
    D.hash s = D.hash s' ∧ D.hash t = D.hash t' := by
  have hlist := congrArg String.toList h
  rw [String.toList_append, String.toList_append] at hlist
  have hlen : (D.hash s).toList.length = (D.hash s').toList.length := by
    rw [String.length_toList, String.length_toList, D.length_hash, D.length_hash]
  obtain ⟨hs, ht⟩ := append_inj hlist hlen
  exact ⟨String.toList_inj.mp hs, String.toList_inj.mp ht⟩

lemma line_left_injective (k : String) {v v' : String} (h : line (k, v) = line (k, v')) :
    v = v' := by
  have hlist := congrArg String.toList h
  unfold line at hlist
  simp only [String.toList_append, append_assoc] at hlist
  exact String.toList_inj.mp (append_cancel_left (append_cancel_left hlist))

/-- Equal lines give equal hashes. -/
lemma Aligned.hash_eq (h : Aligned D S l t l' t') (hlines : l.map line = l'.map line) :
    t.hash = t'.hash := by
  induction h with
  | leaf => exact congrArg D.hash (List.cons.inj hlines).1
  | join _ _ ht _ iht ihu =>
    rw [map_append, map_append] at hlines
    obtain ⟨hl, hr⟩ := append_inj hlines (by rw [length_map, length_map, ht.length_eq])
    show D.hash _ = D.hash _
    rw [iht hl, ihu hr]

/-- A leaf's text is no pair of digests. -/
lemma Built.line_ne {r : List (String × String)} {u : Tree} (ht : Built D S l t)
    (hu : Built D S r u) (p : String × String) : line p ≠ t.hash ++ u.hash := by
  obtain ⟨s, hs⟩ := ht.exists_hash
  obtain ⟨s', hs'⟩ := hu.exists_hash
  rw [hs, hs']
  exact line_ne_append p s s'

/-- **Equal hashes stand for the same leaf texts**, if the digest does not collide on what is
hashed. -/
theorem Built.lines_eq (hinj : S.InjOn D.hash) (h : Built D S l t) (h' : Built D S l' t')
    (heq : t.hash = t'.hash) : l.map line = l'.map line := by
  induction h generalizing l' t' with
  | leaf p hp =>
    cases h' with
    | leaf q hq => rw [map_singleton, map_singleton, hinj hp hq heq]
    | join htext ht hu => exact absurd (hinj hp htext heq) (ht.line_ne hu p)
  | join htext ht hu iht ihu =>
    cases h' with
    | leaf q hq => exact absurd (hinj hq htext heq.symm) (ht.line_ne hu q)
    | join htext' ht' hu' =>
      have happend := hinj htext htext' heq
      obtain ⟨s, hs⟩ := ht.exists_hash
      obtain ⟨s', hs'⟩ := ht'.exists_hash
      obtain ⟨v, hv⟩ := hu.exists_hash
      obtain ⟨v', hv'⟩ := hu'.exists_hash
      rw [hs, hs', hv, hv'] at happend
      obtain ⟨hl, hr⟩ := hash_append_inj happend
      rw [map_append, map_append, iht ht' (hs.trans (hl.trans hs'.symm)),
        ihu hu' (hv.trans (hr.trans hv'.symm))]

end texts

end Replication.AntiEntropy
