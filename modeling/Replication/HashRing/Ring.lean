import Mathlib.Data.Finset.Card
import Mathlib.Data.List.Sort
import Mathlib.Data.List.TakeDrop

/-!
# Hash ring · Ring: preference lists

`internal/hashring/ring.go`. A physical node owns a number of tokens on the ring, and the preference
list of a key is the first distinct nodes met clockwise from the hash of the key.

* `Ring.add`, `Ring.remove`, `Ring.preferenceList` — the ring of the code. Sorting keeps tokens with
  equal hashes in the order in which they were added.
* `nodup_preferenceList`, `length_preferenceList`, `mem_nodes_of_mem_preferenceList`.
-/

set_option linter.unusedSectionVars false

namespace Replication.HashRing

open List

/-- The hash of a virtual node, `hashKey("node#i")`, and that of a key. -/
structure Hashing (I K : Type) where
  /-- The token of the `i`-th virtual node of a node. -/
  token : I → ℕ → ℕ
  point : K → ℕ

/-- FNV-1a over the bytes of a string, in 64 bits. Source: `ring.go` `hashKey`. -/
def hashKey (s : String) : UInt64 :=
  s.toByteArray.data.toList.foldl (fun h b => (h ^^^ b.toUInt64) * 1099511628211)
    14695981039346656037

/-- The hashing of the code: a virtual node is hashed as `node#i`. -/
def fnv : Hashing String String where
  token nodeID i := (hashKey (nodeID ++ "#" ++ toString i)).toNat
  point key := (hashKey key).toNat

/-- A point on the ring owned by a node. Source: `ring.go` `vnode`. -/
structure VNode (I : Type) where
  token : ℕ
  node : I

/-- Source: `ring.go` `Ring`. -/
@[ext] structure Ring (I : Type) where
  /-- The tokens in increasing order. -/
  tokens : List (VNode I)
  nodes : Finset I
  /-- Virtual nodes per physical node. -/
  vnodes : ℕ

variable {I K : Type} [DecidableEq I]

namespace Ring

/-- Source: `ring.go` `NewRing`. -/
def new (vnodes : ℕ) : Ring I := ⟨[], ∅, if vnodes = 0 then 128 else vnodes⟩

/-- The virtual nodes of a node. -/
def tokensOf (H : Hashing I K) (vnodes : ℕ) (nodeID : I) : List (VNode I) :=
  (List.range vnodes).map fun i => ⟨H.token nodeID i, nodeID⟩

/-- Source: `ring.go` `Add`. -/
def add (H : Hashing I K) (r : Ring I) (nodeID : I) : Ring I :=
  if nodeID ∈ r.nodes then r
  else
    { r with
      nodes := insert nodeID r.nodes
      tokens := (r.tokens ++ tokensOf H r.vnodes nodeID).insertionSort
        fun v w => v.token ≤ w.token }

/-- Source: `ring.go` `Remove`. -/
def remove (r : Ring I) (nodeID : I) : Ring I :=
  if nodeID ∈ r.nodes then
    { r with nodes := r.nodes.erase nodeID, tokens := r.tokens.filter fun v => v.node ≠ nodeID }
  else r

/-- The tokens clockwise from a hash: from the first token at or above it, around the ring. -/
def clockwise (r : Ring I) (h : ℕ) : List (VNode I) :=
  let start := r.tokens.findIdx fun v => h ≤ v.token
  let start := if start = r.tokens.length then 0 else start
  r.tokens.drop start ++ r.tokens.take start

/-- The loop of `PreferenceList`: add the nodes not met before until there are `n`. -/
def collect : List (VNode I) → List I → ℕ → List I
  | [], result, _ => result
  | v :: vs, result, n =>
    if v.node ∈ result then collect vs result n
    else if (result ++ [v.node]).length = n then result ++ [v.node]
    else collect vs (result ++ [v.node]) n

/-- Up to `n` distinct nodes for a key. Source: `ring.go` `PreferenceList`. -/
def preferenceList (H : Hashing I K) (r : Ring I) (key : K) (n : ℤ) : List I :=
  if n ≤ 0 ∨ r.tokens = [] then []
  else
    let n := if (r.nodes.card : ℤ) < n then (r.nodes.card : ℤ) else n
    collect (r.clockwise (H.point key)) [] n.toNat

/-- The ring of a membership list. Source: `leaderless.go` `SetAllNodes`. -/
def ofMembers (H : Hashing I K) (ids : List I) : Ring I := ids.foldl (add H) (new 128)

end Ring

/-! ### Distinct elements in order -/

/-- The distinct elements of a list, in the order of their first occurrence. -/
def firsts : List I → List I
  | [] => []
  | a :: l => a :: (firsts l).filter fun b => b ≠ a

lemma mem_firsts {l : List I} {a : I} : a ∈ firsts l ↔ a ∈ l := by
  induction l with
  | nil => rfl
  | cons b l ih =>
    rw [firsts, mem_cons, mem_cons, mem_filter, ih]
    by_cases hab : a = b
    · simp only [hab, true_or]
    · simp only [hab, false_or, ne_eq, not_false_eq_true, decide_true, and_true]

lemma nodup_firsts (l : List I) : (firsts l).Nodup := by
  induction l with
  | nil => exact nodup_nil
  | cons b l ih =>
    rw [firsts, nodup_cons]
    refine ⟨fun h => ?_, ih.filter _⟩
    exact of_decide_eq_true (mem_filter.mp h).2 rfl

lemma firsts_filter (l : List I) (p : I → Bool) : firsts (l.filter p) = (firsts l).filter p := by
  induction l with
  | nil => rfl
  | cons b l ih =>
    by_cases hb : p b = true
    · rw [filter_cons_of_pos hb, firsts, firsts, filter_cons_of_pos hb, ih,
        filter_filter, filter_filter]
      simp only [Bool.and_comm]
    · rw [filter_cons_of_neg hb, firsts, filter_cons_of_neg hb, ih, filter_filter]
      refine filter_congr fun a _ => ?_
      by_cases hab : a = b
      · subst hab
        simp [hb]
      · simp [hab]

lemma length_firsts (l : List I) : (firsts l).length = l.toFinset.card := by
  rw [← toFinset_card_of_nodup (nodup_firsts l)]
  congr 1
  ext a
  rw [mem_toFinset, mem_toFinset, mem_firsts]

/-! ### Preference lists -/

namespace Ring

/-- The loop appends the distinct nodes not met before, up to the count. -/
lemma collect_eq (vs : List (VNode I)) (result : List I) {n : ℕ} (hn : result.length < n) :
    collect vs result n = result ++
      ((firsts (vs.map VNode.node)).filter fun a => a ∉ result).take (n - result.length) := by
  induction vs generalizing result with
  | nil => simp [collect, firsts]
  | cons v vs ih =>
    rw [collect, map_cons, firsts]
    by_cases hv : v.node ∈ result
    · rw [if_pos hv, ih result hn, filter_cons_of_neg (by simpa using hv), filter_filter]
      congr 2
      refine filter_congr fun a _ => ?_
      by_cases ha : a ∈ result
      · simp [ha]
      · have : a ≠ v.node := fun h => ha (h ▸ hv)
        simp [ha, this]
    · rw [if_neg hv, filter_cons_of_pos (by simpa using hv)]
      obtain ⟨k, hk⟩ : ∃ k, n - result.length = k + 1 := ⟨n - result.length - 1, by omega⟩
      rw [hk, take_succ_cons]
      split_ifs with hlen
      · have hzero : k = 0 := by
          rw [length_append, length_singleton] at hlen
          omega
        rw [hzero, take_zero]
      · rw [length_append, length_singleton] at hlen
        rw [ih (result ++ [v.node]) (by rw [length_append, length_singleton]; omega),
          append_assoc, singleton_append, filter_filter]
        congr 3
        · rw [length_append, length_singleton]
          omega
        · refine filter_congr fun a _ => ?_
          simp only [mem_append, mem_singleton, not_or, Bool.decide_and, ne_eq]

/-- The number of nodes a preference list is asked for. -/
def wanted (r : Ring I) (n : ℤ) : ℕ :=
  (if (r.nodes.card : ℤ) < n then (r.nodes.card : ℤ) else n).toNat

/-- The nodes are those with tokens, and the tokens are sorted. -/
structure Valid (r : Ring I) : Prop where
  mem_nodes : ∀ a, a ∈ r.nodes ↔ ∃ v ∈ r.tokens, v.node = a
  sorted : r.tokens.Pairwise fun v w => v.token ≤ w.token
  vnodes_pos : 0 < r.vnodes

instance : Std.Total fun v w : VNode I => v.token ≤ w.token := ⟨fun v w => le_total v.token w.token⟩

instance : IsTrans (VNode I) fun v w => v.token ≤ w.token := ⟨fun _ _ _ h h' => h.trans h'⟩

lemma valid_new (vnodes : ℕ) : (new vnodes : Ring I).Valid := by
  refine ⟨fun a => ?_, List.Pairwise.nil, ?_⟩
  · simp [new]
  · dsimp only [new]
    split_ifs with h
    · decide
    · exact Nat.pos_of_ne_zero h

lemma Valid.add (H : Hashing I K) {r : Ring I} (h : r.Valid) (nodeID : I) :
    (r.add H nodeID).Valid := by
  unfold Ring.add
  split_ifs with hmem
  · exact h
  refine ⟨fun a => ?_, pairwise_insertionSort _ _, h.vnodes_pos⟩
  simp only [Finset.mem_insert, mem_insertionSort, mem_append, h.mem_nodes, tokensOf,
    mem_map, mem_range]
  constructor
  · rintro (rfl | ⟨v, hv, hva⟩)
    · exact ⟨⟨H.token a 0, a⟩, .inr ⟨0, h.vnodes_pos, rfl⟩, rfl⟩
    · exact ⟨v, .inl hv, hva⟩
  · rintro ⟨v, hv | ⟨i, -, rfl⟩, hva⟩
    · exact .inr ⟨v, hv, hva⟩
    · exact .inl hva.symm

lemma valid_ofMembers (H : Hashing I K) (ids : List I) : (ofMembers H ids).Valid :=
  ids.foldlRecOn (motive := Valid) _ (valid_new 128) fun _ h a _ => h.add H a

/-- Adding a node that is there already changes nothing. -/
lemma nodes_add (H : Hashing I K) (r : Ring I) (x : I) :
    (r.add H x).nodes = insert x r.nodes := by
  unfold add
  split_ifs with hx
  · exact (Finset.insert_eq_of_mem hx).symm
  · rfl

lemma mem_nodes_ofMembers (H : Hashing I K) (ids : List I) (a : I) :
    a ∈ (ofMembers H ids).nodes ↔ a ∈ ids := by
  have hfold : ∀ (ids : List I) (r : Ring I),
      a ∈ (ids.foldl (Ring.add H) r).nodes ↔ a ∈ ids ∨ a ∈ r.nodes := by
    intro ids
    induction ids with
    | nil => simp
    | cons b ids ih =>
      intro r
      rw [foldl_cons, ih, nodes_add, Finset.mem_insert, mem_cons, or_left_comm, or_assoc]
  unfold ofMembers
  rw [hfold]
  simp [new]

lemma mem_clockwise {r : Ring I} {h : ℕ} {v : VNode I} : v ∈ r.clockwise h ↔ v ∈ r.tokens := by
  unfold clockwise
  rw [mem_append, or_comm, ← mem_append, take_append_drop]

variable {H : Hashing I K} {r : Ring I} {key : K} {n : ℤ}

section

variable (hr : r.Valid)

include hr

/-- **A preference list** is the beginning of the distinct nodes met clockwise. -/
theorem preferenceList_eq : r.preferenceList H key n =
    if n ≤ 0 then []
    else (firsts ((r.clockwise (H.point key)).map VNode.node)).take (r.wanted n) := by
  unfold preferenceList
  by_cases hn : n ≤ 0
  · rw [if_pos (.inl hn), if_pos hn]
  rw [if_neg hn]
  by_cases htok : r.tokens = []
  · rw [if_pos (.inr htok)]
    have hclock : r.clockwise (H.point key) = [] := by
      unfold clockwise
      rw [htok]
      rfl
    rw [hclock, map_nil, firsts, take_nil]
  · rw [if_neg (not_or.mpr ⟨hn, htok⟩)]
    -- a ring with tokens has a node, so the count is positive
    have hcard : 0 < r.nodes.card := by
      obtain ⟨v, hv⟩ := exists_mem_of_ne_nil _ htok
      exact Finset.card_pos.mpr ⟨v.node, (hr.mem_nodes v.node).mpr ⟨v, hv, rfl⟩⟩
    have hpos : 0 < r.wanted n := by
      unfold wanted
      split_ifs <;> omega
    show collect _ [] (r.wanted n) = _
    rw [collect_eq _ _ hpos]
    simp

lemma nodup_preferenceList (H : Hashing I K) (key : K) (n : ℤ) :
    (r.preferenceList H key n).Nodup := by
  rw [preferenceList_eq hr]
  split_ifs
  · exact nodup_nil
  · exact (nodup_firsts _).sublist (take_sublist _ _)

lemma length_firsts_clockwise (h : ℕ) :
    (firsts ((r.clockwise h).map VNode.node)).length = r.nodes.card := by
  rw [length_firsts]
  congr 1
  ext a
  rw [mem_toFinset, mem_map, hr.mem_nodes]
  simp only [mem_clockwise]

/-- **A preference list has the length asked for**, or all nodes of a smaller ring. -/
theorem length_preferenceList (H : Hashing I K) (key : K) (n : ℤ) :
    ((r.preferenceList H key n).length : ℤ) = max 0 (min n r.nodes.card) := by
  rw [preferenceList_eq hr]
  split_ifs with hn
  · rw [length_nil]
    omega
  · rw [length_take, length_firsts_clockwise hr, wanted]
    split_ifs <;> omega

lemma mem_nodes_of_mem_preferenceList {a : I} (ha : a ∈ r.preferenceList H key n) :
    a ∈ r.nodes := by
  rw [preferenceList_eq hr] at ha
  split_ifs at ha
  · cases ha
  have := mem_of_mem_take ha
  rw [mem_firsts, mem_map] at this
  obtain ⟨v, hv, hva⟩ := this
  exact (hr.mem_nodes a).mpr ⟨v, mem_clockwise.mp hv, hva⟩

end

end Ring

end Replication.HashRing
