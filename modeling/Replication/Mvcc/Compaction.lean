import Mathlib.Data.Set.Finite.Lattice
import Replication.Library.Run
import Replication.Mvcc.Store

/-!
# Mvcc · Compaction: what garbage collection can be seen by

A store that is compacted between its writes, against the same writes without compactions. The two
chains of a key agree from every bound on that was compacted to: they have the same newest version
below it and the same versions from it on, and what a write or another compaction does to these
depends on nothing else.

* `Agrees b c f` — the relation; `Agrees.append`, `Agrees.compact` — steps keep it, and
  `Agrees.readChain_eq`, `Agrees.latestOf_eq` — reads do not tell the chains apart.
-/

namespace Replication.Mvcc

open Library

variable {K V : Type}

/-- What is done to a store. -/
inductive Op (K V : Type) where
  /-- `Put` or `Delete`. -/
  | write (w : Write K V)
  | compact (key : K) (beforeTs : ℤ)
  deriving DecidableEq, Repr

/-- Whether it is a `Put` or a `Delete`. -/
def Op.isWrite : Op K V → Bool
  | .write _ => true
  | .compact _ _ => false

/-- The store after an operation. -/
def Store.step [Inhabited V] [DecidableEq K] (s : Store K V) : Op K V → Store K V
  | .write w => s.write w
  | .compact key beforeTs => s.compact key beforeTs

/-! ### Chains that agree from a bound on -/

/-- Two chains with the same newest version below a bound and the same versions from it on. -/
structure Agrees (b : ℤ) (c f : List (Version V)) : Prop where
  sorted : Sorted c
  sorted' : Sorted f
  last : lastBelow b c = lastBelow b f
  later : fromOn b c = fromOn b f

section agrees

variable {b b' ts : ℤ} {c f : List (Version V)}

lemma agrees_nil (b : ℤ) : Agrees b ([] : List (Version V)) [] :=
  ⟨List.Pairwise.nil, List.Pairwise.nil, rfl, rfl⟩

lemma Agrees.mono (h : Agrees b c f) (hb : b ≤ b') : Agrees b' c f where
  sorted := h.sorted
  sorted' := h.sorted'
  last := by rw [lastBelow_of_le h.sorted hb, lastBelow_of_le h.sorted' hb, h.last, h.later]
  later := by rw [← fromOn_of_le hb, h.later, fromOn_of_le hb]

/-- **A write** keeps two chains in agreement. -/
theorem Agrees.append (h : Agrees b c f) (v : Version V) :
    Agrees b (appendVersion c v) (appendVersion f v) where
  sorted := sorted_appendVersion h.sorted v
  sorted' := sorted_appendVersion h.sorted' v
  last := by
    rw [lastBelow_appendVersion h.sorted, lastBelow_appendVersion h.sorted', h.last, h.later]
  later := by rw [fromOn_appendVersion h.sorted, fromOn_appendVersion h.sorted', h.later]

lemma sorted_compactChain (hc : Sorted c) (b : ℤ) : Sorted (compactChain c b) := by
  dsimp only [compactChain]
  split_ifs
  · exact hc
  · exact hc
  · exact hc.sublist (List.drop_sublist _ _)
  · exact hc
  · exact hc.sublist (List.drop_sublist _ _)

/-- **A compaction** leaves what is from its bound on, and the newest version below. -/
theorem agrees_compactChain (hc : Sorted c) (b : ℤ) : Agrees b (compactChain c b) c := by
  have hlast : ∀ v ∈ (lastBelow b c).toList, v.timestamp < b :=
    fun v hv => (mem_of_lastBelow (Option.mem_toList.mp hv)).2
  have hnone : fromOn b (lastBelow b c).toList = [] := fromOn_eq_nil_iff.mpr hlast
  have hall : below b (lastBelow b c).toList = (lastBelow b c).toList := below_eq_self hlast
  have hlater : below b (fromOn b c) = [] :=
    below_eq_nil_iff.mpr fun v hv => (mem_fromOn.mp hv).2
  refine ⟨sorted_compactChain hc b, hc, ?_, ?_⟩
  · rw [compactChain_eq hc, lastBelow, below_append, hall, hlater, List.append_nil]
    cases lastBelow b c <;> rfl
  · rw [compactChain_eq hc, fromOn_append, hnone, fromOn_of_le le_rfl, List.nil_append]

lemma Agrees.compact (h : Agrees b c f) (hb : b' ≤ b) : Agrees b (compactChain c b') f := by
  have hc := (agrees_compactChain h.sorted b').mono hb
  exact ⟨hc.sorted, h.sorted', hc.last.trans h.last, hc.later.trans h.later⟩

lemma Agrees.readChain_eq (h : Agrees b c f) (hb : b ≤ ts) : readChain c ts = readChain f ts := by
  rw [Mvcc.readChain_eq h.sorted, Mvcc.readChain_eq h.sorted', (h.mono (by omega)).last]

lemma Agrees.latestOf_eq (h : Agrees b c f) : latestOf c = latestOf f := by
  unfold latestOf
  rw [getLast?_eq h.sorted b, getLast?_eq h.sorted' b, h.last, h.later]

end agrees

/-! ### Runs -/

lemma exists_bound (key : K) (ops : List (Op K V)) : ∃ b, ∀ b', .compact key b' ∈ ops → b' ≤ b := by
  have hinj : Function.Injective (Op.compact (V := V) key) := fun _ _ h => (Op.compact.inj h).2
  exact (ops.finite_toSet.preimage hinj.injOn).bddAbove

section run

variable [Inhabited V] [DecidableEq K] {key : K} {b : ℤ} {s s' : Store K V}

/-- A step keeps the chains in agreement. -/
lemma agrees_step (h : Agrees b (s.versions key) (s'.versions key)) (op : Op K V)
    (hb : ∀ b', op = .compact key b' → b' ≤ b) :
    Agrees b ((s.step op).versions key)
      ((if op.isWrite then s'.step op else s').versions key) := by
  cases op with
  | write w =>
    show Agrees b ((s.write w).versions key) ((s'.write w).versions key)
    rw [versions_write, versions_write]
    split_ifs
    · exact h.append w.version
    · exact h
  | compact k b' =>
    show Agrees b ((s.compact k b').versions key) (s'.versions key)
    unfold Store.compact
    by_cases hk : key = k
    · subst hk
      dsimp only
      rw [Function.update_self]
      exact h.compact (hb b' rfl)
    · dsimp only
      rw [Function.update_of_ne hk]
      exact h

/-- **The chains agree after every sequence of operations**, from every bound on that the
compactions of the key do not exceed. -/
theorem agrees_run (ops : List (Op K V)) (hb : ∀ b', .compact key b' ∈ ops → b' ≤ b)
    (h : Agrees b (s.versions key) (s'.versions key)) :
    Agrees b ((run Store.step s ops).versions key)
      ((run Store.step s' (ops.filter Op.isWrite)).versions key) := by
  induction ops generalizing s s' with
  | nil => exact h
  | cons op ops ih =>
    have hop : ∀ b', op = .compact key b' → b' ≤ b := by
      rintro b' rfl
      exact hb b' List.mem_cons_self
    have hstep := ih (fun b' hmem => hb b' (List.mem_cons_of_mem _ hmem)) (agrees_step h op hop)
    rw [run_cons, List.filter_cons]
    split_ifs at hstep ⊢ with hw
    · exact hstep
    · exact hstep

lemma agrees_run_new (ops : List (Op K V)) (hb : ∀ b', .compact key b' ∈ ops → b' ≤ b) :
    Agrees b ((run Store.step Store.new ops).versions key)
      ((run Store.step Store.new (ops.filter Op.isWrite)).versions key) :=
  agrees_run ops hb (agrees_nil b)

end run

/-- **Compaction is invisible**: at every point of a sequence of writes and compactions, reads of a
key at a timestamp that is at least every bound it was compacted to, and reads of its newest
version, return what they return after the same writes without compactions. -/
theorem compaction_invisible [Inhabited V] [DecidableEq K] (ops : List (Op K V)) (key : K) :
    (∀ ts, (∀ b, .compact key b ∈ ops → b ≤ ts) → ∀ pre, pre <+: ops →
      (run Store.step Store.new pre).readAt key ts =
        (run Store.step Store.new (pre.filter Op.isWrite)).readAt key ts) ∧
    ∀ pre, pre <+: ops →
      (run Store.step Store.new pre).latest key =
        (run Store.step Store.new (pre.filter Op.isWrite)).latest key := by
  refine ⟨fun ts hts pre hpre => ?_, fun pre _ => ?_⟩
  · have hagrees := agrees_run_new pre fun b hmem => hts b (hpre.subset hmem)
    exact hagrees.readChain_eq le_rfl
  · obtain ⟨b, hb⟩ := exists_bound key pre
    exact (agrees_run_new pre hb).latestOf_eq

/-- An overwritten version is gone after the compaction, and the reads from its bound on still see
the newest one below. -/
theorem compaction_invisible_overwritten :
    ((run Store.step Store.new
        [.write (.put 0 10 1), .write (.put 0 20 3), .compact 0 5] : Store ℕ ℕ).versions 0).length
          = 1 ∧
      (run Store.step Store.new
        [.write (.put 0 10 1), .write (.put 0 20 3), .compact 0 5] : Store ℕ ℕ).readAt 0 5 =
        (run Store.step Store.new
          [.write (.put 0 10 1), .write (.put 0 20 3)] : Store ℕ ℕ).readAt 0 5 := by
  refine ⟨by decide, ?_⟩
  have h := (compaction_invisible
    ([.write (.put 0 10 1), .write (.put 0 20 3), .compact 0 5] : List (Op ℕ ℕ)) 0).1 5 (by simp)
  exact h _ (List.prefix_refl _)

end Replication.Mvcc
