import Replication.HashRing.Ring
import Replication.Library.Quorum
import Replication.Library.Sorting

/-!
# Hash ring · Growth: a node joins the ring

A node that joins pushes at most one node out of a preference list, and takes its place.

* `walk_add` — the new walk without the node is the old one.
-/

set_option linter.unusedSectionVars false

namespace Replication.HashRing.Ring

open Library List

variable {I K : Type} [DecidableEq I] {H : Hashing I K} {r : Ring I} {x : I} {key : K} {n : ℤ}

/-- The distinct nodes met clockwise from a hash. -/
def walk (r : Ring I) (h : ℕ) : List I := firsts ((r.clockwise h).map VNode.node)

/-- The tokens from a point on, then those before it. -/
lemma clockwise_eq (hr : r.Valid) (h : ℕ) : r.clockwise h =
    (r.tokens.filter fun v => h ≤ v.token) ++ r.tokens.filter fun v => v.token < h := by
  rw [← (split_findIdx hr.sorted h).1, ← (split_findIdx hr.sorted h).2]
  dsimp only [clockwise]
  split_ifs with hstart
  · -- no token is at or above the hash
    rw [hstart, drop_zero, take_zero, append_nil, drop_length, nil_append, take_length]
  · rfl

lemma node_eq_of_mem_tokensOf {n : ℕ} {a : I} {v : VNode I} (hv : v ∈ tokensOf H n a) :
    v.node = a := by
  obtain ⟨i, -, rfl⟩ := mem_map.mp hv
  rfl

lemma filter_tokensOf (n : ℕ) (x : I) : (tokensOf H n x).filter (fun v => v.node ≠ x) = [] := by
  refine filter_eq_nil_iff.mpr fun v hv => ?_
  rw [node_eq_of_mem_tokensOf hv]
  simp

/-- Adding a node adds its own tokens only. -/
lemma filter_tokens_add (hr : r.Valid) (hx : x ∉ r.nodes) :
    ((r.add H x).tokens.filter fun v => v.node ≠ x) = r.tokens := by
  have hold : (r.tokens.filter fun v => v.node ≠ x) = r.tokens := by
    refine filter_eq_self.mpr fun v hv => decide_eq_true fun h => hx ?_
    exact (hr.mem_nodes x).mpr ⟨v, hv, h⟩
  rw [add, if_neg hx, filter_insertionSort, filter_append, hold, filter_tokensOf, append_nil]
  exact hr.sorted.insertionSort_eq

/-- **Fewer tokens**: the walk over a ring without the tokens of a node is the walk without it. -/
theorem walk_eq_filter {r' : Ring I} (hr : r.Valid) (hr' : r'.Valid)
    (htokens : r'.tokens = r.tokens.filter fun v => v.node ≠ x) (h : ℕ) :
    r'.walk h = (r.walk h).filter fun a => a ≠ x := by
  have hclock : r'.clockwise h = (r.clockwise h).filter fun v => v.node ≠ x := by
    rw [clockwise_eq hr', clockwise_eq hr, filter_append, htokens, filter_comm]
    nth_rewrite 2 [filter_comm]
    rfl
  rw [walk, walk, ← firsts_filter, filter_map, hclock]
  rfl

/-- The walk without the new node is the walk before it joined. -/
lemma walk_add (hr : r.Valid) (hx : x ∉ r.nodes) (h : ℕ) :
    r.walk h = ((r.add H x).walk h).filter fun a => a ≠ x :=
  walk_eq_filter (hr.add H x) hr (filter_tokens_add hr hx).symm h

lemma nodup_walk (r : Ring I) (h : ℕ) : (r.walk h).Nodup := nodup_firsts _

lemma card_add (hx : x ∉ r.nodes) : (r.add H x).nodes.card = r.nodes.card + 1 := by
  rw [nodes_add, Finset.card_insert_of_notMem hx]

section

variable (hr : r.Valid)

include hr

/-- A walk meets every node. -/
lemma length_walk (h : ℕ) : (r.walk h).length = r.nodes.card :=
  length_firsts_clockwise hr h

lemma preferenceList_eq_take :
    r.preferenceList H key n = (r.walk (H.point key)).take n.toNat := by
  rw [preferenceList_eq hr]
  split_ifs with hzero
  · rw [Int.toNat_of_nonpos hzero, take_zero]
  rw [← walk, wanted]
  split_ifs with hcard
  · have hlen := length_walk hr (H.point key)
    rw [take_of_length_le (by omega), take_of_length_le (by omega)]
  · rfl

/-- A list that the new node is not on stays. -/
lemma preferenceList_add_of_notMem (hx : x ∉ r.nodes)
    (hnew : x ∉ (r.add H x).preferenceList H key n) :
    (r.add H x).preferenceList H key n = r.preferenceList H key n := by
  rw [preferenceList_eq_take (hr.add H x)] at hnew ⊢
  rw [preferenceList_eq_take hr, walk_add hr hx (H := H), ← take_eq_take_filter hnew]

lemma filter_preferenceList_add (hx : x ∉ r.nodes) (hnew : x ∈ (r.add H x).preferenceList H key n) :
    ((r.add H x).preferenceList H key n).filter (fun a => a ≠ x) ⊆ r.preferenceList H key n := by
  rw [preferenceList_eq_take (hr.add H x)] at hnew ⊢
  rw [preferenceList_eq_take hr, walk_add hr hx (H := H)]
  cases hk : n.toNat with
  | zero => simp [hk] at hnew
  | succ k =>
    rw [hk] at hnew
    rw [filter_take (nodup_walk _ _) hnew]
    exact take_subset_take_left _ (Nat.le_succ k)

lemma notMem_preferenceList (hx : x ∉ r.nodes) : x ∉ r.preferenceList H key n :=
  fun h => hx (mem_nodes_of_mem_preferenceList hr h)

lemma mem_preferenceList_of_card_le (hn : (r.nodes.card : ℤ) ≤ n) {a : I} (ha : a ∈ r.nodes) :
    a ∈ r.preferenceList H key n := by
  have hlen := length_walk hr (H.point key)
  rw [preferenceList_eq_take hr, take_of_length_le (by omega), walk, mem_firsts, mem_map]
  obtain ⟨v, hv, hva⟩ := (hr.mem_nodes a).mp ha
  exact ⟨v, mem_clockwise.mpr hv, hva⟩

end

/-- Whether the replicas of a key stay its replicas when a node joins: the node is there already, or
all nodes are replicas, or the node is not a replica of the key. -/
def Keeps (H : Hashing I K) (r : Ring I) (x : I) (key : K) (n : ℤ) : Prop :=
  x ∈ r.nodes ∨ (r.nodes.card : ℤ) < n ∨ x ∉ (r.add H x).preferenceList H key n

instance (r : Ring I) (x : I) (key : K) (n : ℤ) : Decidable (Keeps H r x key n) :=
  inferInstanceAs (Decidable (_ ∨ _))

lemma Keeps.subset (hr : r.Valid) (h : Keeps H r x key n) :
    r.preferenceList H key n ⊆ (r.add H x).preferenceList H key n := by
  by_cases hx : x ∈ r.nodes
  · rw [add, if_pos hx]
    exact List.Subset.refl _
  rcases h with hmem | hcard | hnew
  · exact absurd hmem hx
  · intro a ha
    refine mem_preferenceList_of_card_le (hr.add H x) ?_ ?_
    · rw [card_add hx]
      omega
    · rw [nodes_add]
      exact Finset.mem_insert_of_mem (mem_nodes_of_mem_preferenceList hr ha)
  · rw [preferenceList_add_of_notMem hr hx hnew]
    exact List.Subset.refl _

/-- **Overlap across a join**: every `W` replicas of a key from before meet every `R` replicas
afterwards if and only if no replica is replaced or the quorums leave room for that. -/
theorem meets_preferenceList_add_iff (hr : r.Valid) (hn : 0 ≤ n) {w k : ℤ} (hwk : n < w + k) :
    Meets (r.preferenceList H key n) ((r.add H x).preferenceList H key n) w k ↔
      Keeps H r x key n ∨ n + 1 < w + k ∨ n < w ∨ n < k := by
  have hlen := length_preferenceList hr H key n
  have hlen' := length_preferenceList (hr.add H x) H key n
  by_cases hkeeps : Keeps H r x key n
  · exact iff_of_true (meets_of_subset (hkeeps.subset hr) (by omega)) (.inl hkeeps)
  -- the new node replaces one of them
  rw [or_iff_right hkeeps]
  obtain ⟨hx, hcard, hnew⟩ : x ∉ r.nodes ∧ n ≤ r.nodes.card ∧
      x ∈ (r.add H x).preferenceList H key n := by
    rw [Keeps, not_or, not_or, not_lt, not_not] at hkeeps
    exact hkeeps
  rw [card_add hx] at hlen'
  have hsize : ((r.preferenceList H key n).length : ℤ) = n := by omega
  rw [meets_iff_of_swap (nodup_preferenceList hr H key n)
    (nodup_preferenceList (hr.add H x) H key n) (by omega) hnew (notMem_preferenceList hr hx)
    (filter_preferenceList_add hr hx hnew) (by omega), hsize]

end Replication.HashRing.Ring
