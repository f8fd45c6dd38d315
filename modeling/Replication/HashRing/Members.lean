import Replication.HashRing.Growth
import Replication.Library.Run

/-!
# Hash ring · Members: preference lists as a function of the membership

A ring that nodes have been added to and removed from, in any order. The token slice is always the
sorted list of the tokens of the nodes, so with distinct tokens the ring is determined by the set of
its nodes.
-/

set_option linter.unusedSectionVars false

namespace Replication.HashRing

open Library List

variable {I K : Type} [DecidableEq I]

/-- A node joins or leaves. -/
inductive Change (I : Type) where
  | add (nodeID : I)
  | remove (nodeID : I)

/-- The members after a change. -/
def Change.apply (nodes : Finset I) : Change I → Finset I
  | .add a => insert a nodes
  | .remove a => nodes.erase a

/-- The nodes that a sequence of changes leaves. -/
def members (changes : List (Change I)) : Finset I := run Change.apply ∅ changes

namespace Ring

/-- The ring after a change. -/
def change (H : Hashing I K) (r : Ring I) : Change I → Ring I
  | .add a => r.add H a
  | .remove a => r.remove a

/-- A new ring after some changes. -/
def after (H : Hashing I K) (vnodes : ℕ) (changes : List (Change I)) : Ring I :=
  run (change H) (new vnodes) changes

/-- No two virtual nodes have one token. -/
def DistinctTokens (r : Ring I) : Prop := (r.tokens.map VNode.token).Nodup

instance (r : Ring I) : Decidable r.DistinctTokens :=
  inferInstanceAs (Decidable (List.Nodup _))

/-! ### The token slice -/

/-- The tokens are those of the nodes, in increasing order. Sorting may leave tokens with equal
hashes in any order. -/
structure Complete (H : Hashing I K) (r : Ring I) : Prop where
  tokens : r.tokens.Perm (r.nodes.toList.flatMap (tokensOf H r.vnodes))
  sorted : r.tokens.Pairwise fun v w => v.token ≤ w.token
  vnodes_pos : 0 < r.vnodes

section complete

variable {H : Hashing I K} {r r' : Ring I} {x : I}

lemma filter_flatMap_of_notMem {n : ℕ} {l : List I} (hx : x ∉ l) :
    (l.flatMap (tokensOf H n)).filter (fun v => v.node ≠ x) = l.flatMap (tokensOf H n) := by
  refine filter_eq_self.mpr fun v hv => decide_eq_true fun h => hx ?_
  obtain ⟨a, ha, hv⟩ := mem_flatMap.mp hv
  rw [← h, node_eq_of_mem_tokensOf hv]
  exact ha

lemma flatMap_insert {nodes : Finset I} (hx : x ∉ nodes) (n : ℕ) :
    ((insert x nodes).toList.flatMap (tokensOf H n)).Perm
      (tokensOf H n x ++ nodes.toList.flatMap (tokensOf H n)) :=
  (Finset.toList_insert hx).flatMap_right _

lemma Complete.valid (h : r.Complete H) : r.Valid := by
  refine ⟨fun a => ?_, h.sorted, h.vnodes_pos⟩
  simp only [h.tokens.mem_iff, mem_flatMap, Finset.mem_toList]
  constructor
  · intro ha
    refine ⟨⟨H.token a 0, a⟩, ⟨a, ha, ?_⟩, rfl⟩
    exact mem_map.mpr ⟨0, mem_range.mpr h.vnodes_pos, rfl⟩
  · rintro ⟨v, ⟨b, hb, hv⟩, rfl⟩
    rw [node_eq_of_mem_tokensOf hv]
    exact hb

lemma complete_new (H : Hashing I K) (vnodes : ℕ) : (new vnodes : Ring I).Complete H where
  tokens := by
    show ([] : List (VNode I)).Perm ((∅ : Finset I).toList.flatMap _)
    rw [Finset.toList_empty, flatMap_nil]
  sorted := List.Pairwise.nil
  vnodes_pos := (valid_new vnodes).vnodes_pos

lemma Complete.add (h : r.Complete H) (x : I) : (r.add H x).Complete H := by
  unfold Ring.add
  split_ifs with hx
  · exact h
  refine ⟨?_, pairwise_insertionSort _ _, h.vnodes_pos⟩
  calc ((r.tokens ++ tokensOf H r.vnodes x).insertionSort fun v w => v.token ≤ w.token).Perm
        (r.tokens ++ tokensOf H r.vnodes x) := perm_insertionSort _ _
    _ |>.Perm (tokensOf H r.vnodes x ++ r.tokens) := perm_append_comm
    _ |>.Perm (tokensOf H r.vnodes x ++ r.nodes.toList.flatMap (tokensOf H r.vnodes)) :=
        h.tokens.append_left _
    _ |>.Perm ((insert x r.nodes).toList.flatMap (tokensOf H r.vnodes)) :=
        (flatMap_insert hx r.vnodes).symm

lemma Complete.remove (h : r.Complete H) (x : I) : (r.remove x).Complete H := by
  unfold Ring.remove
  split_ifs with hx
  · refine ⟨?_, h.sorted.filter _, h.vnodes_pos⟩
    have hperm := flatMap_insert (H := H) (Finset.notMem_erase x r.nodes) r.vnodes
    rw [Finset.insert_erase hx] at hperm
    have hfilter := (h.tokens.trans hperm).filter fun v => v.node ≠ x
    have hnot : x ∉ (r.nodes.erase x).toList := by
      rw [Finset.mem_toList]
      exact Finset.notMem_erase x r.nodes
    rw [filter_append, filter_tokensOf, filter_flatMap_of_notMem hnot] at hfilter
    exact hfilter
  · exact h

/-- **Every change keeps the token slice complete.** -/
theorem Complete.change (h : r.Complete H) (c : Change I) : (r.change H c).Complete H := by
  cases c with
  | add a => exact h.add a
  | remove a => exact h.remove a

/-- A ring holds all tokens of its members. -/
lemma complete_after (H : Hashing I K) (vnodes : ℕ) (changes : List (Change I)) :
    (after H vnodes changes).Complete H :=
  run_invariant' (Complete H) (fun _ c h => h.change c) changes (complete_new H vnodes)

/-- **A ring with distinct tokens is determined by its nodes.** -/
theorem Complete.eq_of_nodes_eq (h : r.Complete H) (h' : r'.Complete H)
    (hdistinct : r.DistinctTokens) (hnodes : r'.nodes = r.nodes) (hvnodes : r'.vnodes = r.vnodes) :
    r' = r := by
  have hperm : r'.tokens.Perm r.tokens := by
    refine h'.tokens.trans ?_
    rw [hnodes, hvnodes]
    exact h.tokens.symm
  -- two virtual nodes with the same token are the same one
  have hinj : ∀ v w, v ∈ r'.tokens → w ∈ r.tokens → v.token ≤ w.token → w.token ≤ v.token →
      v = w :=
    fun v w hv hw hle hge =>
      inj_on_of_nodup_map hdistinct (hperm.mem_iff.mp hv) hw (le_antisymm hle hge)
  exact Ring.ext (hperm.eq_of_pairwise hinj h'.sorted h.sorted) hnodes hvnodes

end complete

/-! ### Histories -/

lemma nodes_change (H : Hashing I K) (r : Ring I) (c : Change I) :
    (r.change H c).nodes = c.apply r.nodes := by
  cases c with
  | add a => exact nodes_add H r a
  | remove a =>
    show (r.remove a).nodes = r.nodes.erase a
    unfold remove
    split_ifs with ha
    · rfl
    · exact (Finset.erase_eq_of_notMem ha).symm

lemma vnodes_change (H : Hashing I K) (r : Ring I) (c : Change I) :
    (r.change H c).vnodes = r.vnodes := by
  cases c with
  | add a =>
    show (r.add H a).vnodes = r.vnodes
    unfold add
    split_ifs <;> rfl
  | remove a =>
    show (r.remove a).vnodes = r.vnodes
    unfold remove
    split_ifs <;> rfl

variable (H : Hashing I K) (vnodes : ℕ) (changes : List (Change I))

lemma nodes_after : (after H vnodes changes).nodes = members changes :=
  run_map (nodes_change H) (new vnodes) changes

lemma vnodes_after : (after H vnodes changes).vnodes = (new vnodes : Ring I).vnodes :=
  run_invariant' (fun r : Ring I => r.vnodes = (new vnodes : Ring I).vnodes)
    (fun r c h => (vnodes_change H r c).trans h) changes rfl

lemma ofMembers_eq_after (ids : List I) : ofMembers H ids = after H 128 (ids.map .add) := by
  unfold ofMembers after run
  rw [foldl_map]
  rfl

include H in
lemma members_map_add (ids : List I) : members (ids.map .add) = ids.toFinset := by
  ext a
  rw [← nodes_after H 128, ← ofMembers_eq_after, mem_nodes_ofMembers, mem_toFinset]

variable {H vnodes changes}

/-- Only the members matter, not the changes. -/
lemma after_eq_after {changes' : List (Change I)}
    (hdistinct : (after H vnodes changes).DistinctTokens)
    (hmembers : members changes' = members changes) :
    after H vnodes changes' = after H vnodes changes := by
  refine (complete_after H vnodes changes).eq_of_nodes_eq (complete_after H vnodes changes')
    hdistinct ?_ ?_
  · rw [nodes_after, nodes_after, hmembers]
  · rw [vnodes_after, vnodes_after]

/-- A longer list begins with the shorter one. -/
lemma preferenceList_mono {r : Ring I} (hr : r.Valid) (key : K) {m n : ℤ} (hmn : m ≤ n) :
    r.preferenceList H key m <+: r.preferenceList H key n := by
  rw [preferenceList_eq_take hr, preferenceList_eq_take hr]
  exact take_prefix_take_left (Int.toNat_le_toNat hmn)

/-- **Preference lists are a function of the membership.** For every history of joins and leaves
that ends in a ring with distinct tokens: a preference list has distinct members, as many as asked
for or all of them; a shorter one is the beginning of a longer one; and every history that leaves
the same nodes gives the same lists, those of coordinators that were told the membership in any
order among them. -/
theorem preferenceList_of_members (H : Hashing I K) (vnodes : ℕ) (changes : List (Change I))
    (hdistinct : (after H vnodes changes).DistinctTokens) :
    (∀ key n, ((after H vnodes changes).preferenceList H key n).Nodup ∧
      (∀ a ∈ (after H vnodes changes).preferenceList H key n, a ∈ members changes) ∧
      (((after H vnodes changes).preferenceList H key n).length : ℤ) =
        max 0 (min n (members changes).card)) ∧
    (∀ key m n, m ≤ n → (after H vnodes changes).preferenceList H key m <+:
      (after H vnodes changes).preferenceList H key n) ∧
    (∀ changes', members changes' = members changes → ∀ key n,
      (after H vnodes changes').preferenceList H key n =
        (after H vnodes changes).preferenceList H key n) ∧
    (vnodes = 128 → ∀ ids : List I, ids.toFinset = members changes → ∀ key n,
      (ofMembers H ids).preferenceList H key n =
        (after H vnodes changes).preferenceList H key n) := by
  have hr := (complete_after H vnodes changes).valid
  refine ⟨fun key n => ⟨nodup_preferenceList hr H key n, fun a ha => ?_, ?_⟩, fun key m n hmn => ?_,
    fun changes' hmembers key n => ?_, fun hvnodes ids hids key n => ?_⟩
  · rw [← nodes_after H vnodes]
    exact mem_nodes_of_mem_preferenceList hr ha
  · rw [length_preferenceList hr, nodes_after]
  · exact preferenceList_mono hr key hmn
  · rw [after_eq_after hdistinct hmembers]
  · subst hvnodes
    rw [ofMembers_eq_after, after_eq_after hdistinct ((members_map_add H ids).trans hids)]

/-- Two histories with the tokens of the code, at two virtual nodes each. -/
theorem preferenceList_of_members_fnv :
    (after fnv 2 [.add "a", .add "b", .remove "a", .add "c"]).preferenceList fnv "key" 2 =
      (after fnv 2 [.add "c", .add "b"]).preferenceList fnv "key" 2 :=
  ((preferenceList_of_members fnv 2 [.add "c", .add "b"] (by decide +kernel)).2.2.1
    [.add "a", .add "b", .remove "a", .add "c"] (by decide)) "key" 2

/-! ### A node leaves or joins -/

/-- At most one element leaves a list and at most one comes in, and those that stay keep their
order. -/
def Swaps (l l' : List I) : Prop :=
  (l.filter fun a => a ∉ l').length ≤ 1 ∧ (l'.filter fun a => a ∉ l).length ≤ 1 ∧
    (l.filter fun a => a ∈ l') = l'.filter fun a => a ∈ l

lemma Swaps.symm {l l' : List I} (h : Swaps l l') : Swaps l' l := ⟨h.2.1, h.1, h.2.2.symm⟩

lemma Swaps.refl (l : List I) : Swaps l l := by
  have hnone : (l.filter fun a => a ∉ l) = [] :=
    filter_eq_nil_iff.mpr fun a ha => by simpa using ha
  refine ⟨?_, ?_, rfl⟩ <;> rw [hnone] <;> exact Nat.zero_le 1

/-- One element is taken out and at most one is put behind the others. -/
lemma swaps_of_filter_eq {l l' m : List I} {x : I} {o : Option I} (hl : l.Nodup)
    (hm : (l.filter fun a => a ≠ x) = m) (hl' : l' = m ++ o.toList) (hx : x ∉ l')
    (ho : ∀ a ∈ o.toList, a ∉ l) : Swaps l l' := by
  have hml : ∀ a ∈ m, a ∈ l := fun a ha => (mem_filter.mp (hm ▸ ha)).1
  have hout : ∀ a ∈ l, a ∉ l' ↔ a = x := by
    intro a ha
    by_cases hax : a = x
    · exact iff_of_true (hax ▸ hx) hax
    · refine iff_of_false (not_not_intro ?_) hax
      rw [hl', ← hm]
      exact mem_append_left _ (mem_filter.mpr ⟨ha, decide_eq_true hax⟩)
  refine ⟨?_, ?_, ?_⟩
  · calc (l.filter fun a => a ∉ l').length
        = (l.filter fun a => a = x).length := by
          rw [filter_congr fun a ha => decide_eq_decide.mpr (hout a ha)]
      _ = l.count x := countP_eq_length_filter.symm
      _ ≤ 1 := nodup_iff_count_le_one.mp hl x
  · have hnone : (m.filter fun a => a ∉ l) = [] :=
      filter_eq_nil_iff.mpr fun a ha => by simpa using hml a ha
    rw [hl', filter_append, hnone, nil_append]
    refine (length_filter_le _ _).trans ?_
    cases o <;> simp
  · have hall : (m.filter fun a => a ∈ l) = m :=
      filter_eq_self.mpr fun a ha => decide_eq_true (hml a ha)
    have hnone : (o.toList.filter fun a => a ∈ l) = [] :=
      filter_eq_nil_iff.mpr fun a ha => by simpa using ho a ha
    calc (l.filter fun a => a ∈ l')
        = l.filter fun a => a ≠ x :=
          filter_congr fun a ha => decide_eq_decide.mpr (not_iff_not.mp (by
            rw [not_not]
            exact hout a ha))
      _ = l'.filter fun a => a ∈ l := by
          rw [hm, hl', filter_append, hall, hnone, append_nil]

/-- Removing one element lets at most one other in. -/
lemma swaps_take_filter {l : List I} (hl : l.Nodup) (x : I) (n : ℕ) :
    Swaps (l.take n) ((l.filter fun a => a ≠ x).take n) := by
  by_cases hx : x ∈ l.take n
  · obtain ⟨k, rfl⟩ : ∃ k, n = k + 1 := by
      cases n with
      | zero => cases hx
      | succ k => exact ⟨k, rfl⟩
    have hnot : x ∉ l.filter fun a => a ≠ x := by simp
    refine swaps_of_filter_eq (hl.sublist (take_sublist _ _)) (filter_take hl hx)
      take_add_one (fun h => hnot (mem_of_mem_take h)) fun a ha hal => ?_
    -- an element of the old beginning would be in the new one twice
    have hmem := mem_of_getElem? (Option.mem_toList.mp ha)
    have hax : a ≠ x := of_decide_eq_true (mem_filter.mp hmem).2
    have hold : a ∈ (l.filter fun a => a ≠ x).take k := by
      rw [← filter_take hl hx]
      exact mem_filter.mpr ⟨hal, decide_eq_true hax⟩
    have hnodup := (hl.filter fun a => a ≠ x).sublist (take_sublist (k + 1) _)
    rw [take_add_one] at hnodup
    exact (nodup_append.mp hnodup).2.2 a hold a ha rfl
  · rw [← take_eq_take_filter hx]
    exact Swaps.refl _

section leave

variable {r : Ring I} {x : I} {key : K} {n : ℤ}

section

variable (hr : r.Complete H)

include hr

/-- The walk without a node is the walk after it has left. -/
lemma walk_remove (hx : x ∈ r.nodes) (h : ℕ) :
    (r.remove x).walk h = (r.walk h).filter fun a => a ≠ x :=
  walk_eq_filter hr.valid (hr.remove x).valid (by rw [remove, if_pos hx]) h

/-- **A removal deletes the node** from the list that is longer by one. -/
theorem preferenceList_remove (hx : x ∈ r.nodes) (key : K) (n : ℤ) :
    (r.remove x).preferenceList H key n =
      ((r.preferenceList H key (n + 1)).erase x).take n.toNat := by
  have hnodup := nodup_walk r (H.point key)
  rw [preferenceList_eq_take (hr.remove x).valid, preferenceList_eq_take hr.valid,
    walk_remove hr hx]
  rcases lt_or_ge n 0 with hn | hn
  · rw [Int.toNat_of_nonpos hn.le, take_zero, take_zero]
  rw [show (n + 1).toNat = n.toNat + 1 by omega]
  generalize r.walk (H.point key) = w at hnodup
  by_cases hmem : x ∈ w.take (n.toNat + 1)
  · rw [erase_eq_filter_ne (hnodup.sublist (take_sublist _ _)), filter_take hnodup hmem,
      take_take, Nat.min_self]
  · rw [erase_of_not_mem hmem, take_take, Nat.min_eq_left (Nat.le_succ _)]
    refine (take_eq_take_filter fun h => hmem ?_).symm
    exact take_subset_take_left w (Nat.le_succ _) h

/-- A removal swaps at most one node of a list. -/
lemma swaps_remove (hx : x ∈ r.nodes) (key : K) (n : ℤ) :
    Swaps (r.preferenceList H key n) ((r.remove x).preferenceList H key n) := by
  rw [preferenceList_eq_take (hr.remove x).valid, preferenceList_eq_take hr.valid,
    walk_remove hr hx]
  exact swaps_take_filter (nodup_walk r _) x n.toNat

/-- An added node swaps out at most one. -/
lemma swaps_add (hx : x ∉ r.nodes) (key : K) (n : ℤ) :
    Swaps (r.preferenceList H key n) ((r.add H x).preferenceList H key n) := by
  rw [preferenceList_eq_take (hr.add x).valid, preferenceList_eq_take hr.valid,
    walk_add hr.valid hx (H := H)]
  exact (swaps_take_filter (nodup_walk _ _) x n.toNat).symm

end

end leave

/-- **Minimal disruption.** For every ring that joins and leaves can build: the list of `n` replicas
after a member has left is the list of `n + 1` before with the member deleted, cut to length; and if
a node leaves or joins, at most one replica of a key is replaced by another one, and those that stay
keep their order. -/
theorem minimal_disruption (H : Hashing I K) (vnodes : ℕ) (changes : List (Change I)) :
    (∀ x ∈ members changes, ∀ key n,
      ((after H vnodes changes).remove x).preferenceList H key n =
        (((after H vnodes changes).preferenceList H key (n + 1)).erase x).take n.toNat) ∧
    (∀ x ∈ members changes, ∀ key n,
      Swaps ((after H vnodes changes).preferenceList H key n)
        (((after H vnodes changes).remove x).preferenceList H key n)) ∧
    (∀ x, x ∉ members changes → ((after H vnodes changes).add H x).DistinctTokens → ∀ key n,
      Swaps ((after H vnodes changes).preferenceList H key n)
        (((after H vnodes changes).add H x).preferenceList H key n)) := by
  have hr := complete_after H vnodes changes
  rw [← nodes_after H vnodes]
  exact ⟨fun x hx => preferenceList_remove hr hx, fun x hx => swaps_remove hr hx,
    fun x hx _ => swaps_add hr hx⟩

/-- The node `a` leaves a ring of three nodes with the tokens of the code, and a node `d` joins. -/
theorem minimal_disruption_fnv :
    ((after fnv 2 [.add "a", .add "b", .add "c"]).remove "a").preferenceList fnv "key" 2 =
        (((after fnv 2 [.add "a", .add "b", .add "c"]).preferenceList fnv "key" 3).erase "a").take
          2 ∧
      Swaps ((after fnv 2 [.add "a", .add "b", .add "c"]).preferenceList fnv "key" 2)
        (((after fnv 2 [.add "a", .add "b", .add "c"]).add fnv "d").preferenceList fnv "key" 2) :=
  ⟨(minimal_disruption fnv 2 [.add "a", .add "b", .add "c"]).1 "a" (by decide) "key" 2,
    (minimal_disruption fnv 2 [.add "a", .add "b", .add "c"]).2.2 "d" (by decide)
      (by decide +kernel) "key" 2⟩

end Ring

end Replication.HashRing
