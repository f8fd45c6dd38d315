import Mathlib.Data.List.Nodup
import Mathlib.Data.List.Sublists
import Mathlib.Data.Nat.Notation

/-!
# Library · Forest: depth-first walks

Nodes of a type `α` hang below anchors of a type `κ`; a node is itself the anchor `key` of the nodes
below it. Nothing is assumed about the anchors: a node can hang below an anchor that no node has,
and anchors can form cycles.
-/

namespace Replication.Library.Forest

open List

variable {α κ : Type} {c : α} {j k : ℕ} {nodes : List α} {x y : κ}

/-- The nodes below an anchor, down to a depth. -/
def preorder (key : α → κ) (children : κ → List α) : ℕ → κ → List α
  | 0, _ => []
  | k + 1, x => (children x).flatMap fun c => c :: preorder key children k (key c)

/-- How far a walk has come. -/
structure Walk (α κ : Type) where
  /-- The keys that have been visited. -/
  visited : List κ
  /-- The nodes, in the order of the walk. -/
  out : List α

variable {below : κ → Walk α κ → Walk α κ} {s : Walk α κ}

/-- One node of a walk, with what `below` does below it. -/
def visit [DecidableEq κ] (key : α → κ) (below : κ → Walk α κ → Walk α κ) (s : Walk α κ) (c : α) :
    Walk α κ :=
  if key c ∈ s.visited then s else below (key c) ⟨key c :: s.visited, s.out ++ [c]⟩

/-- A depth-first walk that enters no key twice, down to a depth. -/
def walk [DecidableEq κ] (key : α → κ) (children : κ → List α) : ℕ → κ → Walk α κ → Walk α κ
  | 0, _, s => s
  | k + 1, x, s => (children x).foldl (visit key (walk key children k)) s

variable {key : α → κ} {children : κ → List α}

/-! ### The depth of a walk -/

section depth

variable [DecidableEq κ]

/-- A visited key is not entered again. -/
lemma visit_of_mem (h : key c ∈ s.visited) : visit key below s c = s := if_pos h

/-- A new key is entered. -/
lemma visit_of_notMem (h : key c ∉ s.visited) :
    visit key below s c = below (key c) ⟨key c :: s.visited, s.out ++ [c]⟩ := if_neg h

/-- What has been visited stays visited, in one node -/
lemma visited_subset_visit (hbelow : ∀ x s, s.visited ⊆ (below x s).visited) (s : Walk α κ)
    (c : α) : s.visited ⊆ (visit key below s c).visited := by
  by_cases hc : key c ∈ s.visited
  · rw [visit_of_mem hc]
    exact List.Subset.refl _
  · rw [visit_of_notMem hc]
    exact List.Subset.trans (subset_cons_self (key c) _) (hbelow (key c) ⟨_, s.out ++ [c]⟩)

/-- and in a whole walk. -/
lemma visited_subset_walk (k : ℕ) (x : κ) (s : Walk α κ) :
    s.visited ⊆ (walk key children k x s).visited := by
  induction k generalizing x s with
  | zero => exact List.Subset.refl _
  | succ k ih =>
    have hfold : ∀ (l : List α) (s : Walk α κ),
        s.visited ⊆ (l.foldl (visit key (walk key children k)) s).visited := by
      intro l
      induction l with
      | nil => exact fun s => List.Subset.refl _
      | cons c l ihl =>
        intro s
        exact List.Subset.trans (visited_subset_visit ih s c) (ihl _)
    exact hfold _ s

/-- The nodes of a list whose keys have not been visited. -/
def remaining (key : α → κ) (nodes : List α) (s : Walk α κ) : ℕ :=
  (nodes.filter fun c => key c ∉ s.visited).length

/-- More visited keys leave fewer nodes. -/
lemma remaining_le_of_subset {s' : Walk α κ} (h : s.visited ⊆ s'.visited) :
    remaining key nodes s' ≤ remaining key nodes s := by
  refine List.Sublist.length_le (monotone_filter_right nodes fun c hc => ?_)
  rw [decide_eq_true_eq] at hc ⊢
  exact fun hmem => hc (h hmem)

/-- Entering a node leaves one node less. -/
lemma remaining_visit_lt (hc : c ∈ nodes) (hnew : key c ∉ s.visited) :
    remaining key nodes ⟨key c :: s.visited, s.out ++ [c]⟩ < remaining key nodes s := by
  have hsub : (nodes.filter fun d => key d ∉ key c :: s.visited).Sublist
      ((nodes.filter fun d => key d ∉ s.visited).filter fun d => key d ≠ key c) := by
    rw [filter_filter]
    refine monotone_filter_right nodes fun d hd => ?_
    simp only [decide_eq_true_eq, mem_cons, not_or] at hd
    simp only [Bool.and_eq_true, decide_eq_true_eq]
    exact hd
  refine hsub.length_le.trans_lt (length_filter_lt_length_iff_exists.mpr ⟨c, ?_, ?_⟩)
  · exact mem_filter.mpr ⟨hc, decide_eq_true hnew⟩
  · simp

/-- **The walk is the same at every depth above the number of nodes** that are left. -/
theorem walk_succ (hnodes : ∀ x, ∀ c ∈ children x, c ∈ nodes) (k : ℕ) (x : κ) (s : Walk α κ)
    (hk : remaining key nodes s < k) : walk key children (k + 1) x s = walk key children k x s := by
  induction k generalizing x s with
  | zero => exact absurd hk (Nat.not_lt_zero _)
  | succ k ih =>
    -- the inner walks have one node less to go
    have hfold : ∀ (l : List α), (∀ c ∈ l, c ∈ nodes) → ∀ s : Walk α κ,
        remaining key nodes s < k + 1 →
          l.foldl (visit key (walk key children (k + 1))) s =
            l.foldl (visit key (walk key children k)) s := by
      intro l
      induction l with
      | nil => exact fun _ s _ => rfl
      | cons c l ihl =>
        intro hl s hs
        have hstep : visit key (walk key children (k + 1)) s c =
            visit key (walk key children k) s c := by
          by_cases hc : key c ∈ s.visited
          · rw [visit_of_mem hc, visit_of_mem hc]
          · rw [visit_of_notMem hc, visit_of_notMem hc]
            have hlt := remaining_visit_lt (hl c mem_cons_self) hc
            exact ih _ _ (by omega)
        have hle : remaining key nodes (visit key (walk key children k) s c) ≤
            remaining key nodes s :=
          remaining_le_of_subset (visited_subset_visit (visited_subset_walk k) s c)
        rw [foldl_cons, foldl_cons, hstep]
        exact ihl (fun d hd => hl d (mem_cons_of_mem c hd)) _ (hle.trans_lt hs)
    exact hfold _ (hnodes x) s hk

end depth

/-! ### Paths -/

/-- An anchor is a number of steps below another. -/
inductive Path (key : α → κ) (children : κ → List α) (x : κ) : κ → ℕ → Prop
  | refl : Path key children x x 0
  | step {y : κ} {j : ℕ} {c : α} (h : Path key children x y j) (hc : c ∈ children y) :
      Path key children x (key c) (j + 1)

/-- No steps lead to the anchor itself. -/
lemma Path.eq_of_zero (h : Path key children x y 0) : y = x := by
  cases h
  rfl

/-- The last step of a path. -/
lemma Path.exists_last (h : Path key children x y (j + 1)) :
    ∃ z c, Path key children x z j ∧ c ∈ children z ∧ key c = y := by
  cases h with
  | step h hc => exact ⟨_, _, h, hc, rfl⟩

/-- A step before a path. -/
lemma Path.cons (hc : c ∈ children x) (h : Path key children (key c) y j) :
    Path key children x y (j + 1) := by
  induction h with
  | refl => exact Path.refl.step hc
  | step _ hd ih => exact ih.step hd

/-- The first step of a path. -/
lemma Path.exists_first (h : Path key children x y (j + 1)) :
    ∃ c ∈ children x, Path key children (key c) y j := by
  induction j generalizing y with
  | zero =>
    obtain ⟨z, c, hz, hc, rfl⟩ := h.exists_last
    obtain rfl := hz.eq_of_zero
    exact ⟨c, hc, .refl⟩
  | succ j ih =>
    obtain ⟨z, d, hz, hd, rfl⟩ := h.exists_last
    obtain ⟨c, hc, hpath⟩ := ih hz
    exact ⟨c, hc, hpath.step hd⟩

/-- Paths compose. -/
lemma Path.trans {z : κ} {i : ℕ} (h : Path key children x y i) (h' : Path key children y z j) :
    Path key children x z (i + j) := by
  induction h' with
  | refl => exact h
  | step _ hc ih => exact ih.step hc

/-- **What a preorder lists**: the nodes at the end of a path. -/
theorem mem_preorder :
    c ∈ preorder key children k x ↔ ∃ y j, j < k ∧ Path key children x y j ∧ c ∈ children y := by
  induction k generalizing x with
  | zero =>
    constructor
    · exact nofun
    · rintro ⟨y, j, hj, -⟩
      exact absurd hj (Nat.not_lt_zero j)
  | succ k ih =>
    rw [preorder, mem_flatMap]
    constructor
    · rintro ⟨d, hd, hc⟩
      rcases mem_cons.mp hc with rfl | hc
      · exact ⟨x, 0, Nat.succ_pos k, .refl, hd⟩
      · obtain ⟨y, j, hj, hpath, hc⟩ := ih.mp hc
        exact ⟨y, j + 1, Nat.succ_lt_succ hj, hpath.cons hd, hc⟩
    · rintro ⟨y, j, hj, hpath, hc⟩
      cases j with
      | zero =>
        obtain rfl := hpath.eq_of_zero
        exact ⟨c, hc, mem_cons_self⟩
      | succ j =>
        obtain ⟨d, hd, hpath⟩ := hpath.exists_first
        refine ⟨d, hd, mem_cons_of_mem d (ih.mpr ?_)⟩
        exact ⟨y, j, Nat.lt_of_succ_lt_succ hj, hpath, hc⟩

/-- A child and what is below it stand together in the preorder. -/
lemma cons_sublist_preorder (hc : c ∈ children x) :
    (c :: preorder key children k (key c)).Sublist (preorder key children (k + 1) x) := by
  obtain ⟨l₁, l₂, hl⟩ := append_of_mem hc
  rw [preorder, hl, flatMap_append, flatMap_cons]
  exact (sublist_append_left _ _).trans (sublist_append_right _ _)

/-- **A node comes before those below it.** -/
theorem pair_sublist_preorder {d : α} (hpath : Path key children x y j) (hc : c ∈ children y)
    (hd : d ∈ children (key c)) (hk : j + 1 < k) : [c, d].Sublist (preorder key children k x) := by
  induction j generalizing x k with
  | zero =>
    obtain rfl := hpath.eq_of_zero
    obtain ⟨k, rfl⟩ := Nat.exists_eq_succ_of_ne_zero (Nat.ne_zero_of_lt hk)
    refine List.Sublist.trans ?_ (cons_sublist_preorder hc)
    refine List.Sublist.cons_cons c (singleton_sublist.mpr (mem_preorder.mpr ?_))
    exact ⟨key c, 0, by omega, .refl, hd⟩
  | succ j ih =>
    obtain ⟨e, he, hpath⟩ := hpath.exists_first
    obtain ⟨k, rfl⟩ := Nat.exists_eq_succ_of_ne_zero (Nat.ne_zero_of_lt hk)
    have hsub := ih hpath (show j + 1 < k by omega)
    exact hsub.trans ((sublist_cons_self e _).trans (cons_sublist_preorder he))

/-! ### Forests -/

/-- No key hangs below two anchors or twice below one, and the root below none. -/
structure IsForest (key : α → κ) (children : κ → List α) (root : κ) : Prop where
  nodup : ∀ x, ((children x).map key).Nodup
  anchor : ∀ x, ∀ c ∈ children x, ∀ y, ∀ d ∈ children y, key c = key d → x = y
  root : ∀ x, ∀ c ∈ children x, key c ≠ root

section forest

variable {root : κ}

/-- In a forest all paths from the root to a key have one length. -/
lemma Path.depth_unique (hf : IsForest key children root) {i : ℕ} (h : Path key children root x i)
    (h' : Path key children root x j) : i = j := by
  induction i generalizing x j with
  | zero =>
    obtain rfl := h.eq_of_zero
    cases j with
    | zero => rfl
    | succ =>
      obtain ⟨z, c, -, hc, heq⟩ := h'.exists_last
      exact absurd heq (hf.root z c hc)
  | succ i ih =>
    obtain ⟨y, c, hy, hc, rfl⟩ := h.exists_last
    cases j with
    | zero => exact absurd h'.eq_of_zero (hf.root y c hc)
    | succ =>
      obtain ⟨z, d, hz, hd, heq⟩ := h'.exists_last
      obtain rfl := hf.anchor y c hc z d hd heq.symm
      rw [ih hy hz]

/-- In a forest the end and the length of a path tell where it starts. -/
lemma Path.start_unique (hf : IsForest key children root) {z : κ} (h : Path key children x z j)
    (h' : Path key children y z j) : x = y := by
  induction j generalizing z with
  | zero => exact h.eq_of_zero.symm.trans h'.eq_of_zero
  | succ j ih =>
    obtain ⟨u, c, hu, hc, rfl⟩ := h.exists_last
    obtain ⟨v, d, hv, hd, heq⟩ := h'.exists_last
    obtain rfl := hf.anchor u c hc v d hd heq.symm
    exact ih hu hv

/-- A listed node is some steps below the anchor. -/
lemma exists_path_of_mem_preorder (h : c ∈ preorder key children k x) :
    ∃ j, Path key children x (key c) (j + 1) := by
  obtain ⟨y, j, -, hpath, hc⟩ := mem_preorder.mp h
  exact ⟨j, hpath.step hc⟩

/-- **A preorder below an anchor that is reached from the root lists no key twice.** -/
theorem nodup_preorder (hf : IsForest key children root) {d : ℕ} (hx : Path key children root x d)
    (k : ℕ) : ((preorder key children k x).map key).Nodup := by
  induction k generalizing x d with
  | zero => exact nodup_nil
  | succ k ih =>
    -- keys below two children of `x` are at the same depth below both
    have hbelow : ∀ c ∈ children x, ∀ y,
        y = key c ∨ y ∈ (preorder key children k (key c)).map key →
        ∃ j, Path key children (key c) y j := by
      rintro c - y (rfl | hy)
      · exact ⟨0, .refl⟩
      · obtain ⟨e, he, rfl⟩ := mem_map.mp hy
        obtain ⟨j, hj⟩ := exists_path_of_mem_preorder he
        exact ⟨j + 1, hj⟩
    rw [preorder, map_flatMap, nodup_flatMap]
    refine ⟨fun c hc => ?_, ?_⟩
    · rw [map_cons, nodup_cons]
      refine ⟨fun hmem => ?_, ih (hx.step hc)⟩
      obtain ⟨e, he, heq⟩ := mem_map.mp hmem
      obtain ⟨j, hj⟩ := exists_path_of_mem_preorder he
      have hdepth := Path.depth_unique hf ((hx.step hc).trans hj) (heq ▸ hx.step hc)
      omega
    · refine (pairwise_map.mp (hf.nodup x)).imp_of_mem fun {c d'} hc hd hne => ?_
      refine disjoint_left.mpr fun y hy hy' => hne ?_
      simp only [map_cons, mem_cons] at hy hy'
      obtain ⟨i, hi⟩ := hbelow c hc y hy
      obtain ⟨j, hj⟩ := hbelow d' hd y hy'
      have hdepth := Path.depth_unique hf ((hx.step hc).trans hi) ((hx.step hd).trans hj)
      obtain rfl : i = j := by omega
      exact Path.start_unique hf hi hj

/-- **Visited keys do not matter where no key is met twice.** -/
theorem walk_eq_preorder [DecidableEq κ] (k : ℕ) (x : κ) (s : Walk α κ)
    (hnd : ((preorder key children k x).map key).Nodup)
    (hnew : ∀ c ∈ preorder key children k x, key c ∉ s.visited) :
    (walk key children k x s).out = s.out ++ preorder key children k x ∧
      ∀ y, y ∈ (walk key children k x s).visited ↔
        y ∈ s.visited ∨ y ∈ (preorder key children k x).map key := by
  induction k generalizing x s with
  | zero => simp [walk, preorder]
  | succ k ih =>
    have hfold : ∀ (l : List α) (s : Walk α κ),
        ((l.flatMap fun c => c :: preorder key children k (key c)).map key).Nodup →
        (∀ c ∈ l.flatMap fun c => c :: preorder key children k (key c), key c ∉ s.visited) →
        (l.foldl (visit key (walk key children k)) s).out =
            s.out ++ l.flatMap (fun c => c :: preorder key children k (key c)) ∧
          ∀ y, y ∈ (l.foldl (visit key (walk key children k)) s).visited ↔
            y ∈ s.visited ∨
              y ∈ (l.flatMap fun c => c :: preorder key children k (key c)).map key := by
      intro l
      induction l with
      | nil => intro s _ _; simp
      | cons c l ihl =>
        intro s hnd hnew
        rw [flatMap_cons, map_append, map_cons, nodup_append] at hnd
        obtain ⟨hhead, htail, hdisj⟩ := hnd
        obtain ⟨hc, hbelow⟩ := nodup_cons.mp hhead
        have hkey : key c ∉ s.visited := hnew c (by simp)
        -- the walk below `c`, and then the rest of the loop
        obtain ⟨hout, hvis⟩ := ih (key c) ⟨key c :: s.visited, s.out ++ [c]⟩ hbelow (by
          intro d hd hmem
          rcases mem_cons.mp hmem with heq | hmem
          · exact hc (mem_map.mpr ⟨d, hd, heq⟩)
          · exact hnew d (by simp [hd]) hmem)
        obtain ⟨hout', hvis'⟩ := ihl (walk key children k (key c)
          ⟨key c :: s.visited, s.out ++ [c]⟩) htail (by
            intro d hd hmem
            have hmem := (hvis (key d)).mp hmem
            rw [mem_cons] at hmem
            have hd' := mem_map_of_mem (f := key) hd
            rcases hmem with (heq | hmem) | hmem
            · exact hdisj _ mem_cons_self _ hd' heq.symm
            · refine hnew d ?_ hmem
              rw [flatMap_cons]
              exact mem_append_right _ hd
            · exact hdisj _ (mem_cons_of_mem _ hmem) _ hd' rfl)
        rw [foldl_cons, visit_of_notMem hkey]
        refine ⟨?_, fun y => ?_⟩
        · rw [hout', hout]
          simp
        · rw [hvis', hvis]
          simp only [mem_cons, flatMap_cons, map_append, map_cons, mem_append]
          tauto
    exact hfold _ s hnd hnew

/-- Paths from the root are no longer than there are nodes. -/
lemma Path.length_le (hf : IsForest key children root) (hnodes : ∀ x, ∀ c ∈ children x, c ∈ nodes)
    (h : Path key children root x j) : j ≤ nodes.length := by
  have hchain : ∀ {x : κ} {j : ℕ}, Path key children root x j →
      ∃ l : List α, l.length = j ∧ l.Nodup ∧ (∀ c ∈ l, c ∈ nodes) ∧
        ∀ c ∈ l, ∃ i ≤ j, Path key children root (key c) i := by
    intro x j h
    induction h with
    | refl => exact ⟨[], rfl, nodup_nil, by simp, by simp⟩
    | step hpath hc ih =>
      rename_i y j c
      obtain ⟨l, hlen, hnd, hmem, hdepth⟩ := ih
      refine ⟨c :: l, by rw [length_cons, hlen], nodup_cons.mpr ⟨fun hcl => ?_, hnd⟩,
        ?_, ?_⟩
      · obtain ⟨i, hi, hpath'⟩ := hdepth c hcl
        have := Path.depth_unique hf hpath' (hpath.step hc)
        omega
      · exact forall_mem_cons.mpr ⟨hnodes y c hc, hmem⟩
      · refine forall_mem_cons.mpr ⟨⟨j + 1, le_rfl, hpath.step hc⟩, fun d hd => ?_⟩
        obtain ⟨i, hi, hpath'⟩ := hdepth d hd
        exact ⟨i, by omega, hpath'⟩
  obtain ⟨l, rfl, hnd, hmem, -⟩ := hchain h
  exact (subperm_of_subset hnd hmem).length_le

end forest

/-! ### Smaller forests -/

/-- The keys of a preorder are the preorder of the keys. -/
lemma map_preorder (k : ℕ) (x : κ) :
    (preorder key children k x).map key = preorder id (fun y => (children y).map key) k x := by
  induction k generalizing x with
  | zero => rfl
  | succ k ih =>
    rw [preorder, preorder, map_flatMap, flatMap_map]
    simp only [map_cons, ih, id]

/-- **More nodes leave the order of the others alone.** -/
theorem preorder_sublist {ch ch' : κ → List κ} (h : ∀ x, (ch x).Sublist (ch' x)) {k' : ℕ}
    (hk : k ≤ k') (x : κ) : (preorder id ch k x).Sublist (preorder id ch' k' x) := by
  induction k generalizing k' x with
  | zero => exact nil_sublist _
  | succ k ih =>
    obtain ⟨k', rfl⟩ := Nat.exists_eq_succ_of_ne_zero (Nat.ne_zero_of_lt hk)
    have hflat : ∀ {l l' : List κ}, l.Sublist l' →
        (l.flatMap fun c => c :: preorder id ch k c).Sublist
          (l'.flatMap fun c => c :: preorder id ch' k' c) := by
      intro l l' hl
      induction hl with
      | slnil => exact nil_sublist _
      | cons c _ ihl =>
        rw [flatMap_cons]
        exact ihl.trans (sublist_append_right _ _)
      | cons_cons c _ ihl =>
        rw [flatMap_cons, flatMap_cons]
        exact ((ih (Nat.le_of_succ_le_succ hk) c).cons_cons c).append ihl
    exact hflat (h x)

end Replication.Library.Forest
