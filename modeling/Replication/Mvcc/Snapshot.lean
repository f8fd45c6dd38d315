import Mathlib.Data.List.Induction
import Mathlib.Data.List.TakeWhile
import Replication.Library.Run
import Replication.Mvcc.Store

/-!
# Mvcc · Snapshot: whether later commits reach into a snapshot

A snapshot read at `ts` against the same read when only the operations up to `ts` had been
performed. Among the operations with the greatest timestamp up to `ts`, a write goes behind its
equals as long as the chain ends with them, and in front of them once something later is in the
chain. So the order of operations with equal timestamps is what the two reads can differ in.
-/

namespace Replication.Mvcc

open Library List

variable {K V : Type} {vs : List (Version V)}

/-! ### The writes that a snapshot can show -/

/-- The write is not above the snapshot, and no write that is not above it is later. -/
def IsTop (ts : ℤ) (vs : List (Version V)) (v : Version V) : Prop :=
  v.timestamp ≤ ts ∧ ∀ w ∈ vs, w.timestamp ≤ ts → w.timestamp ≤ v.timestamp

instance (ts : ℤ) (vs : List (Version V)) (v : Version V) : Decidable (IsTop ts vs v) :=
  inferInstanceAs (Decidable (_ ∧ _))

/-- The writes with the greatest timestamp up to `ts`, in the order of their commits. -/
def tied (ts : ℤ) (vs : List (Version V)) : List (Version V) := vs.filter fun v => IsTop ts vs v

/-- The writes before the first one above `ts`. -/
def early (ts : ℤ) (vs : List (Version V)) : List (Version V) :=
  vs.takeWhile fun v => v.timestamp ≤ ts

/-- The last of the writes with the greatest timestamp up to `ts`. -/
def newest (ts : ℤ) (vs : List (Version V)) : Option (Version V) := (tied ts vs).getLast?

/-- The last of these writes before the first one above `ts`, and the first of all if there is
none. -/
def kept (ts : ℤ) (vs : List (Version V)) : Option (Version V) :=
  ((early ts vs).filter fun v => IsTop ts vs v).getLast?.or (tied ts vs).head?

section top

variable {ts : ℤ} {vs : List (Version V)} {v w : Version V}

lemma early_eq_self (h : ∀ w ∈ vs, w.timestamp ≤ ts) : early ts vs = vs :=
  takeWhile_eq_self_iff.mpr fun w hw => decide_eq_true (h w hw)

lemma early_append (vs : List (Version V)) (v : Version V) : early ts (vs ++ [v]) =
    if ∀ w ∈ vs, w.timestamp ≤ ts then vs ++ early ts [v] else early ts vs := by
  split_ifs with h
  · exact takeWhile_append_of_pos fun w hw => decide_eq_true (h w hw)
  · refine takeWhile_append.trans (if_neg fun hlen => h fun w hw => ?_)
    rw [← (List.takeWhile_prefix _).eq_of_length hlen] at hw
    simpa using mem_takeWhile_imp hw

lemma isTop_append : IsTop ts (vs ++ [v]) w ↔
    IsTop ts vs w ∧ (v.timestamp ≤ ts → v.timestamp ≤ w.timestamp) := by
  simp only [IsTop, mem_append, mem_singleton, or_imp, forall_and, forall_eq, and_assoc]

lemma filter_isTop (ts : ℤ) (vs : List (Version V)) :
    ((vs.filter fun v => v.timestamp ≤ ts).filter fun v => IsTop ts vs v) = tied ts vs := by
  unfold tied
  rw [filter_filter]
  refine filter_congr fun w _ => ?_
  rw [Bool.eq_iff_iff]
  simp only [Bool.and_eq_true, decide_eq_true_eq, and_iff_left_iff_imp]
  exact fun htop => htop.1

lemma tied_append (h : ∀ w ∈ vs, IsTop ts (vs ++ [v]) w ↔ IsTop ts vs w) :
    tied ts (vs ++ [v]) = tied ts vs ++ [v].filter fun w => IsTop ts (vs ++ [v]) w := by
  unfold tied
  rw [filter_append]
  congr 1
  exact filter_congr fun w hw => by simp only [h w hw]

lemma kept_append_of_not (h : ∀ w ∈ vs, IsTop ts (vs ++ [v]) w ↔ IsTop ts vs w)
    (hv : ¬ IsTop ts (vs ++ [v]) v) : kept ts (vs ++ [v]) = kept ts vs := by
  have hnone : ∀ l, l <+: [v] → (l.filter fun w => IsTop ts (vs ++ [v]) w) = [] := by
    intro l hl
    refine filter_eq_nil_iff.mpr fun w hw => ?_
    rw [mem_singleton.mp (hl.subset hw)]
    simpa using hv
  have hearly : ((early ts (vs ++ [v])).filter fun w => IsTop ts (vs ++ [v]) w) =
      (early ts vs).filter fun w => IsTop ts vs w := by
    rw [early_append]
    split_ifs with hle
    · rw [early_eq_self hle, filter_append, hnone (early ts [v]) (List.takeWhile_prefix _),
        append_nil]
      exact filter_congr fun w hw => by simp only [h w hw]
    · exact filter_congr fun w hw => by
        simp only [h w ((List.takeWhile_prefix _).subset hw)]
  unfold kept
  rw [hearly, tied_append h, hnone _ (prefix_refl _), append_nil]

lemma kept_append_of_lt (hle : v.timestamp ≤ ts)
    (h : ∀ w ∈ vs, w.timestamp ≤ ts → w.timestamp < v.timestamp) :
    kept ts (vs ++ [v]) = some v := by
  have htop : IsTop ts (vs ++ [v]) v := by
    refine isTop_append.mpr ⟨⟨hle, fun w hw hwts => (h w hw hwts).le⟩, fun _ => le_rfl⟩
  have htied : tied ts (vs ++ [v]) = [v] := by
    unfold tied
    rw [filter_append, filter_eq_nil_iff.mpr, nil_append, filter_cons, if_pos (decide_eq_true htop)]
    · rfl
    · intro w hw
      have hnot : ¬ IsTop ts (vs ++ [v]) w := fun hw' =>
        absurd ((isTop_append.mp hw').2 hle) (not_le.mpr (h w hw hw'.1))
      simpa using hnot
  have hsub : ((early ts (vs ++ [v])).filter fun w => IsTop ts (vs ++ [v]) w).Sublist
      (tied ts (vs ++ [v])) := (List.takeWhile_prefix _).sublist.filter _
  rw [htied] at hsub
  unfold kept
  rw [htied]
  rcases sublist_singleton.mp hsub with hearly | hearly <;> rw [hearly] <;> rfl

lemma kept_append_of_eq {o : Version V} (ho : o ∈ vs) (htop : IsTop ts vs o)
    (heq : v.timestamp = o.timestamp) :
    kept ts (vs ++ [v]) = if ∀ w ∈ vs, w.timestamp ≤ ts then some v else kept ts vs := by
  have hiff : ∀ w ∈ vs, IsTop ts (vs ++ [v]) w ↔ IsTop ts vs w := by
    intro w hw
    rw [isTop_append, and_iff_left_iff_imp]
    exact fun hw' _ => heq ▸ hw'.2 o ho htop.1
  have hv : IsTop ts (vs ++ [v]) v := by
    refine isTop_append.mpr ⟨⟨heq ▸ htop.1, fun w hw hle => heq ▸ htop.2 w hw hle⟩, fun _ => le_rfl⟩
  have hlast : ([v].filter fun w => IsTop ts (vs ++ [v]) w) = [v] := by
    rw [filter_cons, if_pos (decide_eq_true hv)]
    rfl
  unfold kept
  rw [early_append]
  split_ifs with hle
  · have hend : early ts [v] = [v] := early_eq_self fun w hw => by
      rw [mem_singleton.mp hw]
      exact hv.1
    rw [hend, filter_append, hlast, getLast?_append]
    rfl
  · have hne : tied ts vs ≠ [] :=
      ne_nil_of_mem (mem_filter.mpr ⟨ho, decide_eq_true htop⟩)
    rw [tied_append hiff, head?_append_of_ne_nil _ hne]
    congr 2
    exact filter_congr fun w hw => by
      simp only [hiff w ((List.takeWhile_prefix _).subset hw)]

end top

/-! ### The chain of a sequence of writes -/

/-- The chain that writes leave, in the order of their commits. -/
def chainOf (vs : List (Version V)) : List (Version V) := run appendVersion [] vs

lemma sorted_chainOf (vs : List (Version V)) : Sorted (chainOf vs) :=
  run_invariant' Sorted (fun _ v h => sorted_appendVersion h v) vs List.Pairwise.nil

lemma chainOf_append (vs : List (Version V)) (v : Version V) :
    chainOf (vs ++ [v]) = appendVersion (chainOf vs) v := by
  rw [chainOf, run_append]
  rfl

lemma mem_chainOf {w : Version V} : w ∈ chainOf vs ↔ w ∈ vs := by
  induction vs using List.reverseRecOn with
  | nil => rfl
  | append_singleton vs v ih =>
    rw [chainOf_append, mem_appendVersion (sorted_chainOf vs), ih, mem_append, mem_singleton]

lemma isTop_of_lastBelow {ts : ℤ} {o : Version V} (ho : lastBelow (ts + 1) (chainOf vs) = some o) :
    o ∈ vs ∧ IsTop ts vs o := by
  obtain ⟨hmem, hlt⟩ := mem_of_lastBelow ho
  refine ⟨mem_chainOf.mp hmem, by omega, fun w hw hle => ?_⟩
  exact le_of_lastBelow (sorted_chainOf vs) ho (mem_chainOf.mpr hw) (by omega)

/-- **The chain shows the kept write**, by induction over the commits: each of them is above `ts`,
or above what was shown, or tied with it, or below. -/
theorem lastBelow_chainOf (ts : ℤ) (vs : List (Version V)) :
    lastBelow (ts + 1) (chainOf vs) = kept ts vs := by
  induction vs using List.reverseRecOn with
  | nil => rfl
  | append_singleton vs v ih =>
    rw [chainOf_append, lastBelow_appendVersion (sorted_chainOf vs)]
    by_cases hv : ts + 1 ≤ v.timestamp
    · rw [if_pos hv, ih]
      refine (kept_append_of_not (fun w _ => ?_) fun h => ?_).symm
      · rw [isTop_append, and_iff_left]
        intro hle
        omega
      · have := h.1
        omega
    · rw [if_neg hv]
      have hle : v.timestamp ≤ ts := by omega
      cases ho : lastBelow (ts + 1) (chainOf vs) with
      | none =>
        refine (kept_append_of_lt hle fun w hw hwts => ?_).symm
        have hnil := getLast?_eq_none_iff.mp ho
        have := below_eq_nil_iff.mp hnil w (mem_chainOf.mpr hw)
        omega
      | some o =>
        obtain ⟨hmem, htop⟩ := isTop_of_lastBelow ho
        have hlater : fromOn (ts + 1) (chainOf vs) = [] ↔ ∀ w ∈ vs, w.timestamp ≤ ts := by
          simp only [fromOn_eq_nil_iff, mem_chainOf, Int.lt_add_one_iff]
        dsimp only
        rcases lt_trichotomy o.timestamp v.timestamp with hlt | heq | hgt
        · rw [if_pos (.inl hlt)]
          refine (kept_append_of_lt hle fun w hw hwts => ?_).symm
          exact (htop.2 w hw hwts).trans_lt hlt
        · rw [kept_append_of_eq hmem htop heq.symm, ← ih, ho]
          simp only [heq, lt_irrefl, false_or, true_and, hlater]
        · rw [if_neg (by omega), ← ho, ih]
          refine (kept_append_of_not (fun w hw => ?_) fun h => ?_).symm
          · rw [isTop_append, and_iff_left_iff_imp]
            exact fun hw' _ => hgt.le.trans (hw'.2 o hmem htop.1)
          · have := (isTop_append.mp h).1.2 o hmem htop.1
            omega

lemma getLast?_or_head? {α : Type} (l : List α) : l.getLast?.or l.head? = l.getLast? := by
  cases l with
  | nil => rfl
  | cons => simp [getLast?_cons]

lemma kept_filter (ts : ℤ) (vs : List (Version V)) :
    kept ts (vs.filter fun v => v.timestamp ≤ ts) = newest ts vs := by
  have hle : ∀ w ∈ vs.filter (fun v => v.timestamp ≤ ts), w.timestamp ≤ ts :=
    fun w hw => of_decide_eq_true (mem_filter.mp hw).2
  have htop : ∀ w, IsTop ts (vs.filter fun v => v.timestamp ≤ ts) w ↔ IsTop ts vs w := by
    intro w
    simp only [IsTop, mem_filter, decide_eq_true_eq, and_imp]
    refine and_congr_right fun _ => forall_congr' fun x => ?_
    exact ⟨fun h hx hxts => h hx hxts hxts, fun h hx _ hxts => h hx hxts⟩
  have htied : tied ts (vs.filter fun v => v.timestamp ≤ ts) = tied ts vs := by
    rw [← filter_isTop ts vs]
    exact filter_congr fun w _ => by simp only [htop]
  unfold kept newest
  rw [early_eq_self hle, show List.filter _ _ = _ from htied, htied]
  exact getLast?_or_head? _

/-- If the timestamps do not decrease, the writes before the first one above `ts` are all those up
to `ts`. -/
lemma early_of_sorted (ts : ℤ) (h : Sorted vs) :
    early ts vs = vs.filter fun v => v.timestamp ≤ ts := by
  induction vs with
  | nil => rfl
  | cons v vs ih =>
    obtain ⟨hle, hvs⟩ := pairwise_cons.mp h
    unfold early at ih ⊢
    rw [takeWhile_cons, filter_cons]
    split_ifs with hv
    · rw [ih hvs]
    · refine (filter_eq_nil_iff.mpr fun w hw => ?_).symm
      rw [decide_eq_true_eq, not_le] at hv ⊢
      exact hv.trans_le (hle w hw)

lemma kept_of_sorted (ts : ℤ) (h : Sorted vs) : kept ts vs = newest ts vs := by
  unfold kept newest
  rw [early_of_sorted ts h, filter_isTop]
  exact getLast?_or_head? _

/-! ### Snapshot reads of a store -/

section store

variable [Inhabited V] [DecidableEq K]

/-- The versions that operations commit on a key. -/
def written (key : K) (ws : List (Write K V)) : List (Version V) :=
  (ws.filter fun w => w.key = key).map Write.version

section

variable (ws : List (Write K V))

lemma versions_run (key : K) :
    (run Store.write Store.new ws).versions key = chainOf (written key ws) := by
  induction ws using List.reverseRecOn with
  | nil => rfl
  | append_singleton ws w ih =>
    rw [run_append]
    show (Store.write _ w).versions key = _
    rw [versions_write, ih]
    unfold written
    rw [filter_append, map_append]
    split_ifs with hk
    · rw [filter_cons_of_pos (by simpa using hk.symm)]
      exact (chainOf_append _ _).symm
    · rw [filter_cons_of_neg (by simpa using Ne.symm hk), filter_nil, map_nil, append_nil]

/-- A read returns the version that is kept. -/
lemma readAt_run (key : K) (ts : ℤ) :
    (run Store.write Store.new ws).readAt key ts =
      (kept ts (written key ws)).bind Version.result := by
  unfold Store.readAt
  rw [versions_run, readChain_eq (sorted_chainOf _), lastBelow_chainOf]

lemma written_filter (key : K) (ts : ℤ) :
    written key (ws.filter fun w => w.timestamp ≤ ts) =
      (written key ws).filter fun v => v.timestamp ≤ ts := by
  unfold written
  rw [filter_comm, filter_map]
  congr 1
  exact filter_congr fun w _ => by simp only [Function.comp_apply, Write.timestamp_version]

/-- **Snapshots are isolated** if the operations on a key come in the order of their timestamps, as
`Put` expects them to. -/
theorem readAt_filter_of_sorted {key : K} (h : Sorted (written key ws)) (ts : ℤ) :
    (run Store.write Store.new ws).readAt key ts =
      (run Store.write Store.new (ws.filter fun w => w.timestamp ≤ ts)).readAt key ts := by
  rw [readAt_run, readAt_run, written_filter, kept_filter, kept_of_sorted ts h]

/-- A read before a later delete. -/
theorem readAt_filter_deleted :
    (run Store.write Store.new [.put 7 1 10, .delete 7 20]).readAt 7 15 =
      (run Store.write Store.new [.put 7 1 10]).readAt 7 15 :=
  readAt_filter_of_sorted [.put 7 1 10, .delete 7 20] (by unfold Sorted; decide) 15

end

/-- **Snapshot isolation.** A read at `ts` after all operations returns what it returns after those
up to `ts` exactly when the last operation with the greatest timestamp up to `ts` reads the same as
the last such operation before the first commit above `ts` (or the first one, if all come
after it). -/
theorem readAt_eq_readAt_filter_iff (ws : List (Write K V)) (key : K) (ts : ℤ) :
    (run Store.write Store.new ws).readAt key ts =
        (run Store.write Store.new (ws.filter fun w => w.timestamp ≤ ts)).readAt key ts ↔
      (kept ts (written key ws)).bind Version.result =
        (newest ts (written key ws)).bind Version.result := by
  rw [readAt_run, readAt_run, written_filter, kept_filter]

end store

/-- The commit at timestamp nine makes the second write at five invisible to the snapshot at
five. -/
theorem readAt_tied_after_later :
    (run Store.write Store.new [.put 0 1 5, .put 0 7 9, .put 0 2 5] : Store ℕ ℕ).readAt 0 5 =
        some 1 ∧
      (run Store.write Store.new
        ([.put 0 1 5, .put 0 7 9, .put 0 2 5].filter fun w => w.timestamp ≤ 5) :
          Store ℕ ℕ).readAt 0 5 = some 2 := by
  decide

end Replication.Mvcc
