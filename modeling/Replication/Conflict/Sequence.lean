import Replication.Conflict.Laws
import Replication.Conflict.Resolver
import Replication.Library.Forest

/-!
# Conflict · Sequence: the order of a sequence

`internal/conflict/rga.go`. The elements of a sequence hang below the elements they were inserted
after; the order is a depth-first walk from the head, siblings by descending id, and then the
elements the walk has not met. The recursion of the walk is bounded by the number of elements, which
it never exceeds (`RGA.walkFrom_succ`).
-/

set_option linter.unusedSectionVars false

namespace Replication.Conflict

open List

open Library.Forest

variable {σ : Type} [LinearOrder σ] [Inhabited σ] {e : RGAElem σ} {l : List (RGAElem σ)}

/-! ### The source's functions -/

/-- The order of siblings: higher ids come first. -/
def higherFirst (x y : RGAElem σ) : Prop := y.id ≤ x.id

instance : DecidableRel (higherFirst (σ := σ)) := fun x y =>
  inferInstanceAs (Decidable (y.id ≤ x.id))

/-- The elements inserted after an anchor, by descending id. Source: `rga.go` `order`. -/
def RGA.childrenOf (a : RGA σ) (anchor : σ) : List (RGAElem σ) :=
  (a.elems.filter fun e => e.after = anchor).insertionSort higherFirst

/-- The closure `walk` of the source, in at most `k` nested calls. Source: `rga.go` `order`. -/
def RGA.walkFrom (a : RGA σ) (k : ℕ) (anchor : σ) (s : Walk (RGAElem σ) σ) : Walk (RGAElem σ) σ :=
  walk RGAElem.id a.childrenOf k anchor s

/-- The loop over the elements that the walk has not met. Source: `rga.go` `order`. -/
def addRest (s : Walk (RGAElem σ) σ) (e : RGAElem σ) : Walk (RGAElem σ) σ :=
  if e.id ∈ s.visited then s else ⟨e.id :: s.visited, s.out ++ [e]⟩

/-- The elements, head first; the head is the empty id. Source: `rga.go` `order`. -/
def RGA.order (a : RGA σ) : List (RGAElem σ) :=
  let s := a.walkFrom (a.elems.length + 1) default ⟨[], []⟩
  if s.out.length ≠ a.elems.length then
    s.out ++ (a.elems.foldl addRest ⟨s.visited, []⟩).out.insertionSort higherFirst
  else s.out

/-- The elements whose values are concatenated. Source: `rga.go` `Value`. -/
def RGA.visible (a : RGA σ) : List (RGAElem σ) := a.order.filter fun e => !e.deleted

/-! ### Siblings -/

instance : Std.Total (higherFirst (σ := σ)) := ⟨fun x y => le_total y.id x.id⟩

instance : IsTrans (RGAElem σ) higherFirst := ⟨fun _ _ _ h h' => h'.trans h⟩

section siblings

variable {a : RGA σ}

/-- The children of an anchor. -/
lemma RGA.mem_childrenOf {anchor : σ} :
    e ∈ a.childrenOf anchor ↔ e ∈ a.elems ∧ e.after = anchor := by
  unfold RGA.childrenOf
  rw [mem_insertionSort, mem_filter, decide_eq_true_eq]

/-- With more nested calls than elements, one more changes nothing. -/
lemma RGA.walkFrom_succ (a : RGA σ) {k : ℕ} (hk : a.elems.length < k) (anchor : σ) :
    a.walkFrom (k + 1) anchor ⟨[], []⟩ = a.walkFrom k anchor ⟨[], []⟩ := by
  have hmem : ∀ x, ∀ c ∈ a.childrenOf x, c ∈ a.elems := fun x c hc =>
    (RGA.mem_childrenOf.mp hc).1
  exact walk_succ hmem k anchor _ ((length_filter_le _ _).trans_lt hk)

/-- **The walk ends**, whatever ids and anchors the elements have: it nests no deeper than there are
elements. -/
theorem RGA.walkFrom_of_lt (a : RGA σ) {k : ℕ} (hk : a.elems.length < k) (anchor : σ) :
    a.walkFrom k anchor ⟨[], []⟩ = a.walkFrom (a.elems.length + 1) anchor ⟨[], []⟩ := by
  induction k, hk using Nat.le_induction with
  | base => rfl
  | succ k hk ih => rw [RGA.walkFrom_succ a hk, ih]

/-- Two elements that are inserted after each other. -/
theorem RGA.walkFrom_of_lt_cycle :
    let a : RGA ℕ := ⟨[⟨1, 0, 2, false⟩, ⟨2, 0, 1, false⟩]⟩
    a.walkFrom 9 1 ⟨[], []⟩ = a.walkFrom 3 1 ⟨[], []⟩ :=
  RGA.walkFrom_of_lt _ (by decide) 1

/-- The strict order of siblings. -/
def idGreater (x y : RGAElem σ) : Prop := y.id < x.id

instance : Std.Irrefl (idGreater (σ := σ)) := ⟨fun x => lt_irrefl x.id⟩

instance : Std.Antisymm (idGreater (σ := σ)) := ⟨fun _ _ h h' => absurd h' (lt_asymm h)⟩

/-- Siblings with ids of their own are sorted strictly, -/
lemma pairwise_insertionSort_idGreater (hnd : (l.map RGAElem.id).Nodup) :
    (l.insertionSort higherFirst).Pairwise idGreater := by
  have hsorted := pairwise_insertionSort higherFirst l
  have hids : ((l.insertionSort higherFirst).map RGAElem.id).Nodup :=
    ((perm_insertionSort _ l).map RGAElem.id).nodup_iff.mpr hnd
  exact (hsorted.and (pairwise_map.mp hids)).imp fun h => lt_of_le_of_ne h.1 (Ne.symm h.2)

/-- so their order depends on the set of them only. -/
lemma insertionSort_congr {l' : List (RGAElem σ)} (hnd : (l.map RGAElem.id).Nodup)
    (hnd' : (l'.map RGAElem.id).Nodup) (h : ∀ e, e ∈ l ↔ e ∈ l') :
    l.insertionSort higherFirst = l'.insertionSort higherFirst := by
  refine (pairwise_insertionSort_idGreater hnd).eq_of_mem_iff
    (pairwise_insertionSort_idGreater hnd') fun e => ?_
  rw [mem_insertionSort, mem_insertionSort, h]

end siblings

/-! ### Well-formed sequences -/

/-- Ids are unique, and no element has the id of the head. -/
structure RGA.WellFormed (a : RGA σ) : Prop where
  nodup : (a.elems.map RGAElem.id).Nodup
  nonempty : ∀ e ∈ a.elems, e.id ≠ default

/-- An id below the head. -/
inductive RGA.Reachable (a : RGA σ) : σ → Prop
  | head : a.Reachable default
  | step {e : RGAElem σ} (he : e ∈ a.elems) (h : a.Reachable e.after) : a.Reachable e.id

/-- Reachable ids are at the end of a path. -/
lemma RGA.reachable_iff {a : RGA σ} {x : σ} :
    a.Reachable x ↔ ∃ j, Path RGAElem.id a.childrenOf default x j := by
  constructor
  · intro h
    induction h with
    | head => exact ⟨0, .refl⟩
    | step he _ ih =>
      obtain ⟨j, hj⟩ := ih
      exact ⟨j + 1, hj.step (RGA.mem_childrenOf.mpr ⟨he, rfl⟩)⟩
  · rintro ⟨j, hj⟩
    induction hj with
    | refl => exact .head
    | step _ hc ih =>
      obtain ⟨he, hafter⟩ := RGA.mem_childrenOf.mp hc
      exact .step he (hafter.symm ▸ ih)

/-- What the walk lists. -/
def RGA.listed (a : RGA σ) : List (RGAElem σ) :=
  preorder RGAElem.id a.childrenOf (a.elems.length + 1) default

/-- What the walk does not meet. -/
def RGA.dangling (a : RGA σ) : List (RGAElem σ) :=
  a.elems.filter fun e => e.id ∉ a.listed.map RGAElem.id

/-- The loop adds the elements that have not been visited. -/
lemma foldl_addRest (l : List (RGAElem σ)) (hnd : (l.map RGAElem.id).Nodup)
    (s : Walk (RGAElem σ) σ) :
    (l.foldl addRest s).out = s.out ++ l.filter fun e => e.id ∉ s.visited := by
  induction l generalizing s with
  | nil => simp
  | cons e l ih =>
    rw [map_cons, nodup_cons] at hnd
    rw [foldl_cons, ih hnd.2]
    by_cases he : e.id ∈ s.visited
    · simp [addRest, he]
    -- the elements after `e` have other ids
    have hrest : (l.filter fun x => x.id ∉ e.id :: s.visited) =
        l.filter fun x => x.id ∉ s.visited := by
      refine filter_congr fun x hx => ?_
      have hne : x.id ≠ e.id := fun heq => hnd.1 (mem_map.mpr ⟨x, hx, heq⟩)
      simp [hne]
    have hhead : ((e :: l).filter fun x => x.id ∉ s.visited) =
        e :: l.filter fun x => x.id ∉ s.visited :=
      filter_cons_of_pos (decide_eq_true he)
    rw [addRest, if_neg he, hrest, hhead, append_assoc, singleton_append]

section wellFormed

variable {a : RGA σ} (h : a.WellFormed)

include h

/-- Some of the elements have unique ids as well. -/
lemma RGA.WellFormed.nodup_filter (p : RGAElem σ → Bool) :
    ((a.elems.filter p).map RGAElem.id).Nodup := h.nodup.sublist (filter_sublist.map _)

/-- The id determines the element. -/
lemma RGA.WellFormed.eq_of_id {e' : RGAElem σ} (he : e ∈ a.elems) (he' : e' ∈ a.elems)
    (hid : e.id = e'.id) : e = e' :=
  inj_on_of_nodup_map h.nodup he he' hid

/-- **A well-formed sequence is a forest below the head.** -/
theorem isForest_childrenOf : IsForest RGAElem.id a.childrenOf default := by
  constructor
  · exact fun x => ((perm_insertionSort _ _).map RGAElem.id).nodup_iff.mpr (h.nodup_filter _)
  · intro x c hc y d hd hid
    obtain ⟨hmem, hafter⟩ := RGA.mem_childrenOf.mp hc
    obtain ⟨hmem', hafter'⟩ := RGA.mem_childrenOf.mp hd
    rw [← hafter, ← hafter', h.eq_of_id hmem hmem' hid]
  · intro x c hc
    exact h.nonempty c (RGA.mem_childrenOf.mp hc).1

/-- The walk lists no id twice. -/
lemma RGA.nodup_listed : (a.listed.map RGAElem.id).Nodup :=
  nodup_preorder (isForest_childrenOf h) .refl _

/-- The anchor of a reachable element is reachable. -/
lemma RGA.Reachable.anchor (he : e ∈ a.elems) (hreach : a.Reachable e.id) :
    a.Reachable e.after := by
  generalize hid : e.id = x at hreach
  cases hreach with
  | head => exact absurd hid (h.nonempty e he)
  | step he' hafter =>
    obtain rfl := h.eq_of_id he he' hid
    exact hafter

/-- **The walk lists the reachable elements.** -/
theorem RGA.mem_listed : e ∈ a.listed ↔ e ∈ a.elems ∧ a.Reachable e.id := by
  unfold RGA.listed
  rw [mem_preorder]
  constructor
  · rintro ⟨y, j, -, hpath, he⟩
    exact ⟨(RGA.mem_childrenOf.mp he).1, RGA.reachable_iff.mpr ⟨j + 1, hpath.step he⟩⟩
  · rintro ⟨he, hreach⟩
    obtain ⟨j, hpath⟩ := RGA.reachable_iff.mp (hreach.anchor h he)
    have hle := hpath.length_le (isForest_childrenOf h) fun x c hc => (RGA.mem_childrenOf.mp hc).1
    exact ⟨e.after, j, Nat.lt_succ_of_le hle, hpath, RGA.mem_childrenOf.mpr ⟨he, rfl⟩⟩

/-- What is left are the elements out of reach. -/
lemma RGA.mem_dangling : e ∈ a.dangling ↔ e ∈ a.elems ∧ ¬ a.Reachable e.id := by
  unfold RGA.dangling
  rw [mem_filter, decide_eq_true_eq]
  refine and_congr_right fun he => not_congr ?_
  rw [mem_map]
  constructor
  · rintro ⟨x, hx, hid⟩
    exact hid ▸ ((RGA.mem_listed h).mp hx).2
  · exact fun hreach => ⟨e, (RGA.mem_listed h).mpr ⟨he, hreach⟩, rfl⟩

/-- If the walk lists as many elements as there are, nothing is left. -/
lemma RGA.dangling_eq_nil (hlen : a.listed.length = a.elems.length) : a.dangling = [] := by
  have hsub : a.listed.Subperm a.elems := by
    refine subperm_of_subset (List.Nodup.of_map _ (RGA.nodup_listed h)) fun e he => ?_
    exact ((RGA.mem_listed h).mp he).1
  have hperm := hsub.perm_of_length_le hlen.ge
  rw [eq_nil_iff_forall_not_mem]
  intro e he
  obtain ⟨hmem, hnot⟩ := (RGA.mem_dangling h).mp he
  exact hnot ((RGA.mem_listed h).mp (hperm.mem_iff.mpr hmem)).2

/-- **The order of a well-formed sequence**: the preorder below the head, and then the rest by
descending id. -/
theorem RGA.order_eq : a.order = a.listed ++ a.dangling.insertionSort higherFirst := by
  obtain ⟨hout, hvis⟩ := walk_eq_preorder (a.elems.length + 1) default ⟨[], []⟩
    (RGA.nodup_listed h) fun _ _ => not_mem_nil
  have hwalk : (a.walkFrom (a.elems.length + 1) default ⟨[], []⟩).out = a.listed := hout
  have hrest : (a.elems.foldl addRest
      ⟨(a.walkFrom (a.elems.length + 1) default ⟨[], []⟩).visited, []⟩).out = a.dangling := by
    rw [foldl_addRest _ h.nodup, nil_append]
    refine filter_congr fun e _ => ?_
    have hiff := hvis e.id
    rw [or_iff_right not_mem_nil] at hiff
    rw [decide_eq_decide]
    exact not_congr hiff
  unfold RGA.order
  simp only [hwalk, hrest]
  split_ifs with hlen
  · rfl
  · rw [RGA.dangling_eq_nil h (not_not.mp hlen)]
    simp

/-- The order lists the elements, -/
lemma RGA.mem_order : e ∈ a.order ↔ e ∈ a.elems := by
  rw [RGA.order_eq h, mem_append, mem_insertionSort, RGA.mem_listed h, RGA.mem_dangling h]
  tauto

/-- none of them twice. -/
lemma RGA.nodup_order : (a.order.map RGAElem.id).Nodup := by
  rw [RGA.order_eq h, map_append, nodup_append]
  refine ⟨RGA.nodup_listed h, ?_, ?_⟩
  · exact ((perm_insertionSort _ _).map RGAElem.id).nodup_iff.mpr (h.nodup_filter _)
  · intro x hx y hy heq
    obtain ⟨e, he, rfl⟩ := mem_map.mp hx
    obtain ⟨e', he', rfl⟩ := mem_map.mp hy
    rw [mem_insertionSort] at he'
    exact ((RGA.mem_dangling h).mp he').2 (heq ▸ ((RGA.mem_listed h).mp he).2)

/-- **Every element is listed once.** -/
theorem RGA.order_perm : a.order.Perm a.elems :=
  (perm_ext_iff_of_nodup (List.Nodup.of_map _ (RGA.nodup_order h))
    (List.Nodup.of_map _ h.nodup)).mpr fun _ => RGA.mem_order h

/-- **An element comes after its anchor.** -/
theorem RGA.anchor_before (he : e ∈ a.elems) (hreach : a.Reachable e.id)
    (hafter : e.after ≠ default) : ∃ p ∈ a.elems, p.id = e.after ∧ [p, e].Sublist a.order := by
  have hanchor := hreach.anchor h he
  generalize hx : e.after = x at hanchor
  cases hanchor with
  | head => exact absurd hx hafter
  | step hp hreach' =>
    rename_i p
    obtain ⟨j, hpath⟩ := RGA.reachable_iff.mp hreach'
    have hstep := hpath.step (RGA.mem_childrenOf.mpr ⟨hp, rfl⟩)
    have hle := hstep.length_le (isForest_childrenOf h) fun x c hc => (RGA.mem_childrenOf.mp hc).1
    refine ⟨p, hp, rfl, ?_⟩
    rw [RGA.order_eq h]
    refine List.Sublist.trans ?_ (sublist_append_left _ _)
    exact pair_sublist_preorder hpath (RGA.mem_childrenOf.mpr ⟨hp, rfl⟩)
      (RGA.mem_childrenOf.mpr ⟨he, hx⟩) (Nat.lt_succ_of_le hle)

end wellFormed

/-- **The order depends on the set of elements only.** -/
theorem RGA.order_congr {a a' : RGA σ} (h : a.WellFormed) (h' : a'.WellFormed)
    (heq : ∀ e, e ∈ a'.elems ↔ e ∈ a.elems) : a'.order = a.order := by
  have hlen : a'.elems.length = a.elems.length :=
    ((perm_ext_iff_of_nodup (List.Nodup.of_map _ h'.nodup)
      (List.Nodup.of_map _ h.nodup)).mpr heq).length_eq
  have hchildren : a'.childrenOf = a.childrenOf := by
    funext x
    refine insertionSort_congr (h'.nodup_filter _) (h.nodup_filter _) fun e => ?_
    rw [mem_filter, mem_filter, heq]
  have hlisted : a'.listed = a.listed := by
    unfold RGA.listed
    rw [hchildren, hlen]
  have hdangling : a'.dangling.insertionSort higherFirst =
      a.dangling.insertionSort higherFirst := by
    refine insertionSort_congr (h'.nodup_filter _) (h.nodup_filter _) fun e => ?_
    unfold RGA.dangling
    rw [mem_filter, mem_filter, heq, hlisted]
  rw [RGA.order_eq h, RGA.order_eq h', hlisted, hdangling]

/-! ### Merging -/

section merge

variable {a b : RGA σ}

/-- The elements of a merge. -/
lemma RGA.mem_merge : e ∈ (a.merge b).elems ↔
    combine (entryAt a.elems e.id) (entryAt b.elems e.id) = some e := by
  obtain ⟨hsorted, hentry⟩ := RGA.merge_spec a b
  rw [← hentry, entryAt_eq_some_iff (hsorted.imp ne_of_lt)]
  exact (and_iff_left rfl).symm

/-- A merge keeps the elements of the left side, up to deletion. -/
lemma RGA.exists_mem_merge (h : a.WellFormed) (he : e ∈ a.elems) :
    ∃ d, { e with deleted := e.deleted || d } ∈ (a.merge b).elems := by
  have hentry : entryAt a.elems e.id = some e :=
    (entryAt_eq_some_iff (pairwise_map.mp h.nodup)).mpr ⟨he, rfl⟩
  cases hb : entryAt b.elems e.id with
  | none =>
    refine ⟨false, ?_⟩
    rw [Bool.or_false, RGA.mem_merge, hentry, hb]
    rfl
  | some e' =>
    refine ⟨e'.deleted, ?_⟩
    rw [RGA.mem_merge]
    show combine (entryAt a.elems e.id) (entryAt b.elems e.id) = _
    rw [hentry, hb]
    rfl

/-- Merging keeps sequences well formed. -/
lemma RGA.wellFormed_merge (ha : a.WellFormed) (hb : b.WellFormed) : (a.merge b).WellFormed := by
  constructor
  · exact pairwise_map.mpr ((RGA.merge_spec a b).1.imp ne_of_lt)
  · intro e he
    rw [RGA.mem_merge] at he
    cases hx : entryAt a.elems e.id with
    | some =>
      obtain ⟨-, y, hy, hid, -⟩ := exists_of_entryAt hx
      exact hid ▸ ha.nonempty y hy
    | none =>
      rw [hx] at he
      obtain ⟨-, y, hy, hid, -⟩ := exists_of_entryAt (show entryAt b.elems e.id = some e from he)
      exact hid ▸ hb.nonempty y hy

/-- Sorted ids that are among others are in their order. -/
lemma sublist_of_idGreater {l' : List (RGAElem σ)} (hl : l.Pairwise idGreater)
    (hl' : l'.Pairwise idGreater) (h : l.map RGAElem.id ⊆ l'.map RGAElem.id) :
    (l.map RGAElem.id).Sublist (l'.map RGAElem.id) := by
  have hgt : (l.map RGAElem.id).Pairwise (· > ·) := pairwise_map.mpr hl
  have hgt' : (l'.map RGAElem.id).Pairwise (· > ·) := pairwise_map.mpr hl'
  refine sublist_of_subperm_of_pairwise (subperm_of_subset ?_ h)
    (hgt.imp le_of_lt) (hgt'.imp le_of_lt)
  exact hgt.imp ne_of_gt

/-- A merge keeps the order of siblings. -/
lemma RGA.childrenOf_sublist_merge (ha : a.WellFormed) (hb : b.WellFormed) (x : σ) :
    ((a.childrenOf x).map RGAElem.id).Sublist (((a.merge b).childrenOf x).map RGAElem.id) := by
  have hsorted : ∀ c : RGA σ, c.WellFormed → (c.childrenOf x).Pairwise idGreater := fun c hc =>
    pairwise_insertionSort_idGreater (hc.nodup_filter _)
  refine sublist_of_idGreater (hsorted a ha) (hsorted _ (RGA.wellFormed_merge ha hb)) ?_
  intro i hi
  obtain ⟨e, he, rfl⟩ := mem_map.mp hi
  obtain ⟨hmem, hafter⟩ := RGA.mem_childrenOf.mp he
  obtain ⟨d, hd⟩ := RGA.exists_mem_merge (b := b) ha hmem
  exact mem_map.mpr ⟨_, RGA.mem_childrenOf.mpr ⟨hd, hafter⟩, rfl⟩

/-- **A merge leaves the order of a reachable sequence alone.** -/
theorem RGA.order_sublist_merge (ha : a.WellFormed) (hb : b.WellFormed)
    (hreach : ∀ e ∈ a.elems, a.Reachable e.id) :
    (a.order.map RGAElem.id).Sublist ((a.merge b).order.map RGAElem.id) := by
  have hm := RGA.wellFormed_merge ha hb
  have hnone : a.dangling = [] := by
    rw [eq_nil_iff_forall_not_mem]
    intro e he
    obtain ⟨hmem, hnot⟩ := (RGA.mem_dangling ha).mp he
    exact hnot (hreach e hmem)
  have hlen : a.elems.length ≤ (a.merge b).elems.length := by
    have hsub : a.elems.map RGAElem.id ⊆ (a.merge b).elems.map RGAElem.id := by
      intro i hi
      obtain ⟨e, he, rfl⟩ := mem_map.mp hi
      obtain ⟨d, hd⟩ := RGA.exists_mem_merge (b := b) ha he
      exact mem_map.mpr ⟨_, hd, rfl⟩
    simpa using (subperm_of_subset ha.nodup hsub).length_le
  have hlisted : (a.listed.map RGAElem.id).Sublist ((a.merge b).listed.map RGAElem.id) := by
    unfold RGA.listed
    rw [map_preorder, map_preorder]
    exact preorder_sublist (RGA.childrenOf_sublist_merge ha hb) (Nat.succ_le_succ hlen) default
  rw [RGA.order_eq ha, RGA.order_eq hm, hnone, map_append, map_append]
  simpa using hlisted.trans (sublist_append_left _ _)

/-- Of a list without repetitions, what is in a sublist is the sublist. -/
lemma filter_mem_of_sublist {l l' : List σ} (hsub : l.Sublist l') (hnd : l'.Nodup) :
    (l'.filter fun x => x ∈ l) = l := by
  have hself : (l.filter fun x => x ∈ l) = l := filter_eq_self.mpr fun x hx =>
    decide_eq_true hx
  have hfilter := hsub.filter fun x => decide (x ∈ l)
  rw [hself] at hfilter
  have hperm : l.Perm (l'.filter fun x => x ∈ l) := by
    refine (perm_ext_iff_of_nodup (hnd.sublist hsub) (hnd.sublist filter_sublist)).mpr ?_
    intro x
    rw [mem_filter, decide_eq_true_eq]
    exact ⟨fun hx => ⟨hsub.subset hx, hx⟩, fun hx => hx.2⟩
  exact (hfilter.eq_of_length hperm.length_eq).symm

/-- A merge keeps deletions. -/
lemma RGA.deleted_merge (ha : a.WellFormed) (hb : b.WellFormed) {e' : RGAElem σ}
    (he : e ∈ a.elems) (hdel : e.deleted = true) (he' : e' ∈ (a.merge b).elems)
    (hid : e'.id = e.id) : e'.deleted = true := by
  obtain ⟨d, hd⟩ := RGA.exists_mem_merge (b := b) ha he
  obtain rfl := (RGA.wellFormed_merge ha hb).eq_of_id he' hd hid
  show (e.deleted || d) = true
  rw [hdel, Bool.true_or]

end merge

/-- **The order of a sequence is stable**: it lists every element once, depends on the set of
elements only, puts reachable elements after their anchors, and a merge, from either side, changes
neither the relative order of a reachable sequence nor a deletion. -/
theorem order_stable (a b : RGA σ) (ha : a.WellFormed) (hb : b.WellFormed)
    (hdet : Determined (a.elems ++ b.elems)) :
    a.order.Perm a.elems ∧
      (∀ a' : RGA σ, a'.WellFormed → (∀ e, e ∈ a'.elems ↔ e ∈ a.elems) → a'.order = a.order) ∧
      (∀ e ∈ a.elems, a.Reachable e.id → e.after ≠ default →
        ∃ p ∈ a.elems, p.id = e.after ∧ [p, e].Sublist a.order) ∧
      ((∀ e ∈ a.elems, a.Reachable e.id) → ∀ m, m = a.merge b ∨ m = b.merge a →
        ((m.order.map RGAElem.id).filter fun i => i ∈ a.elems.map RGAElem.id) =
            a.order.map RGAElem.id ∧
          ∀ e ∈ a.elems ++ b.elems, e.deleted = true → ∀ e' ∈ m.visible, e'.id ≠ e.id) := by
  refine ⟨RGA.order_perm ha, fun a' ha' heq => RGA.order_congr ha ha' heq,
    fun e he hreach hafter => RGA.anchor_before ha he hreach hafter, fun hreach m hm => ?_⟩
  have hm : m = a.merge b := by
    rcases hm with rfl | rfl
    · rfl
    · exact (RGA.merge_comm hdet).symm
  subst hm
  have hwf := RGA.wellFormed_merge ha hb
  constructor
  · have hmem : ∀ i, i ∈ a.elems.map RGAElem.id ↔ i ∈ a.order.map RGAElem.id := fun i =>
      ((RGA.order_perm ha).map RGAElem.id).mem_iff.symm
    simp only [hmem]
    exact filter_mem_of_sublist (RGA.order_sublist_merge ha hb hreach) (RGA.nodup_order hwf)
  · intro e he hdel e' he' hid
    obtain ⟨he', hvisible⟩ := mem_filter.mp he'
    have hmem := (RGA.mem_order hwf).mp he'
    have hdel' : e'.deleted = true := by
      rcases mem_append.mp he with he | he
      · exact RGA.deleted_merge ha hb he hdel hmem hid
      · rw [RGA.merge_comm hdet] at hmem
        exact RGA.deleted_merge hb ha he hdel hmem hid
    simp [hdel'] at hvisible

/-- Two replicas of a text: the left one deletes its second element, the right one inserts after
it. -/
def leftText : RGA String := ⟨[⟨"a1", "x", "", false⟩, ⟨"a2", "y", "a1", true⟩]⟩

@[inherit_doc leftText] def rightText : RGA String :=
  ⟨[⟨"a1", "x", "", false⟩, ⟨"a2", "y", "a1", false⟩, ⟨"b1", "z", "a2", false⟩]⟩

/-- The order of the left replica is that of the merged text, without the new element. -/
theorem order_stable_texts :
    (((leftText.merge rightText).order.map RGAElem.id).filter
      fun i => i ∈ leftText.elems.map RGAElem.id) = leftText.order.map RGAElem.id := by
  have hwf : leftText.WellFormed ∧ rightText.WellFormed := by
    refine ⟨⟨?_, ?_⟩, ⟨?_, ?_⟩⟩ <;> decide
  have hdet : Determined (leftText.elems ++ rightText.elems) := by decide
  have hreach : ∀ e ∈ leftText.elems, leftText.Reachable e.id := by
    have h₁ : leftText.Reachable "a1" :=
      .step (e := ⟨"a1", "x", "", false⟩) mem_cons_self .head
    intro e he
    rcases mem_cons.mp he with rfl | he
    · exact h₁
    · rw [mem_singleton.mp he]
      exact .step (e := ⟨"a2", "y", "a1", true⟩) (mem_cons_of_mem _ mem_cons_self) h₁
  exact ((order_stable leftText rightText hwf.1 hwf.2 hdet).2.2.2 hreach _ (.inl rfl)).1

end Replication.Conflict
