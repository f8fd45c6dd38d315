import Mathlib.Data.Finset.Range
import Replication.Leaderless.Node
import Replication.Library.Overlap

/-!
# Quorum · Calculator: what quorum arithmetic says about sets

`internal/quorum/calculator.go`. Sums and differences are those of a 64-bit `int` and wrap around.
The estimate of stale reads, in floating point, is left out.
-/

namespace Replication.Quorum

open Leaderless Library

/-- The sum or difference of two `int`. -/
def wrap (n : ℤ) : ℤ := n.bmod (2 ^ 64)

/-- Source: `calculator.go` `QuorumPreset`. -/
inductive QuorumPreset where
  | strong
  | quorum
  | ha
  | writeOpt
  | readOpt
  | other
  deriving DecidableEq, Repr

/-- Source: `calculator.go` `Preset`. -/
def preset (p : QuorumPreset) (n : ℤ) : QuorumConfig :=
  match p with
  | .strong => ⟨n, n, 1⟩
  | .quorum => ⟨n, n.tdiv 2 + 1, n.tdiv 2 + 1⟩
  | .ha => ⟨n, 1, 1⟩
  | .writeOpt => ⟨n, 1, n⟩
  | .readOpt => ⟨n, n, 1⟩
  | .other => ⟨n, n.tdiv 2 + 1, n.tdiv 2 + 1⟩

/-- The errors of `IsValid`. -/
inductive ConfigError where
  /-- "N must be > 0, got %d". -/
  | n (got : ℤ)
  /-- "W must be in [1, N=%d], got %d". -/
  | w (n got : ℤ)
  /-- "R must be in [1, N=%d], got %d". -/
  | r (n got : ℤ)
  deriving DecidableEq, Repr

/-- Source: `calculator.go` `IsValid`. -/
def isValid (q : QuorumConfig) : Except ConfigError Unit :=
  if q.N ≤ 0 then .error (.n q.N)
  else if q.W ≤ 0 ∨ q.N < q.W then .error (.w q.N q.W)
  else if q.R ≤ 0 ∨ q.N < q.R then .error (.r q.N q.R)
  else .ok ()

/-- Source: `calculator.go` `IsStronglyConsistent`. -/
def isStronglyConsistent (q : QuorumConfig) : Bool := q.N < wrap (q.W + q.R)

/-- Source: `calculator.go` `OverlapCount`. -/
def overlapCount (q : QuorumConfig) : ℤ :=
  let overlap := wrap (wrap (q.W + q.R) - q.N)
  if overlap < 0 then 0 else overlap

variable {q : QuorumConfig}

lemma isValid_eq_ok_iff :
    isValid q = .ok () ↔ 0 < q.N ∧ (0 < q.W ∧ q.W ≤ q.N) ∧ (0 < q.R ∧ q.R ≤ q.N) := by
  unfold isValid
  split_ifs with hn hw hr
  · simp only [false_iff]
    omega
  · simp only [false_iff]
    omega
  · simp only [false_iff]
    omega
  · simp only [true_iff]
    omega

/-- **Presets pass the check** for any number of replicas. -/
theorem isValid_preset (p : QuorumPreset) {n : ℤ} (hn : 0 < n) : isValid (preset p n) = .ok () := by
  have hdiv : n.tdiv 2 = n / 2 := Int.tdiv_eq_ediv_of_nonneg (by omega)
  rw [isValid_eq_ok_iff]
  cases p <;> dsimp only [preset] <;> omega

section arithmetic

variable (hvalid : isValid q = .ok ()) (hN : q.N < 2 ^ 63)
include hvalid hN

lemma overlapCount_eq : overlapCount q = max 0 (q.W + q.R - q.N) := by
  obtain ⟨hn, ⟨hw, hw'⟩, hr, hr'⟩ := isValid_eq_ok_iff.mp hvalid
  have hwrap : wrap (wrap (q.W + q.R) - q.N) = q.W + q.R - q.N := by
    unfold wrap
    rw [Int.bmod_sub_bmod]
    exact Int.bmod_eq_of_le (by omega) (by omega)
  unfold overlapCount
  rw [hwrap]
  dsimp only
  split_ifs <;> omega

lemma isStronglyConsistent_iff :
    isStronglyConsistent q = true ↔ q.N < q.W + q.R ∧ q.W + q.R < 2 ^ 63 := by
  obtain ⟨hn, ⟨hw, hw'⟩, hr, hr'⟩ := isValid_eq_ok_iff.mp hvalid
  unfold isStronglyConsistent wrap
  rw [decide_eq_true_eq]
  by_cases hlt : q.W + q.R < 2 ^ 63
  · rw [Int.bmod_eq_of_le (by omega) (by omega)]
    exact (and_iff_left hlt).symm
  · -- the sum wraps around to a negative number
    rw [← Int.sub_bmod_right (q.W + q.R) (2 ^ 64), Int.bmod_eq_of_le (by omega) (by omega)]
    omega

end arithmetic

/-- **Quorum arithmetic means set overlap.** For every valid configuration of 64-bit integers and
every set of `N` replicas: the configuration is called strongly consistent exactly when every `W`
replicas and every `R` replicas have one in common, and the overlap count is the smallest size of
their intersection — iff `W + R` is below `2 ^ 63`. -/
theorem quorum_arithmetic_iff {α : Type} [DecidableEq α] (hvalid : isValid q = .ok ())
    (hN : q.N < 2 ^ 63) {s : Finset α} (hs : (s.card : ℤ) = q.N) :
    ((isStronglyConsistent q = true ↔
          ∀ A B : Finset α, A ⊆ s → B ⊆ s → (A.card : ℤ) = q.W → (B.card : ℤ) = q.R →
            (A ∩ B).Nonempty) ∧
        IsLeast {k : ℤ | ∃ A B : Finset α, A ⊆ s ∧ B ⊆ s ∧ (A.card : ℤ) = q.W ∧
          (B.card : ℤ) = q.R ∧ ((A ∩ B).card : ℤ) = k} (overlapCount q)) ↔
      q.W + q.R < 2 ^ 63 := by
  obtain ⟨hn, ⟨hw, hw'⟩, hr, hr'⟩ := isValid_eq_ok_iff.mp hvalid
  obtain ⟨w, hwq⟩ := Int.eq_ofNat_of_zero_le hw.le
  obtain ⟨r, hrq⟩ := Int.eq_ofNat_of_zero_le hr.le
  have hwle : w ≤ s.card := by omega
  have hrle : r ≤ s.card := by omega
  have hmeet : (∀ A B : Finset α, A ⊆ s → B ⊆ s → (A.card : ℤ) = q.W → (B.card : ℤ) = q.R →
      (A ∩ B).Nonempty) ↔ q.N < q.W + q.R := by
    rw [hwq, hrq, ← hs]
    simp only [Nat.cast_inj]
    rw [forall_inter_nonempty_iff hwle hrle]
    omega
  have hleast : IsLeast {k : ℤ | ∃ A B : Finset α, A ⊆ s ∧ B ⊆ s ∧ (A.card : ℤ) = q.W ∧
      (B.card : ℤ) = q.R ∧ ((A ∩ B).card : ℤ) = k} (overlapCount q) := by
    obtain ⟨⟨A, B, hA, hB, hAw, hBr, hinter⟩, hlow⟩ := isLeast_card_inter hwle hrle
    rw [overlapCount_eq hvalid hN]
    refine ⟨⟨A, B, hA, hB, by omega, by omega, by omega⟩, ?_⟩
    rintro k ⟨A', B', hA', hB', hAw', hBr', rfl⟩
    have := hlow ⟨A', B', hA', hB', by omega, by omega, rfl⟩
    omega
  rw [hmeet, isStronglyConsistent_iff hvalid hN, and_iff_left hleast]
  omega

/-- Two of three replicas to write and to read. -/
theorem quorum_arithmetic_majorities :
    (isStronglyConsistent ⟨3, 2, 2⟩ = true ↔
        ∀ A B : Finset ℕ, A ⊆ Finset.range 3 → B ⊆ Finset.range 3 → (A.card : ℤ) = 2 →
          (B.card : ℤ) = 2 → (A ∩ B).Nonempty) ∧
      IsLeast {k : ℤ | ∃ A B : Finset ℕ, A ⊆ Finset.range 3 ∧ B ⊆ Finset.range 3 ∧
        (A.card : ℤ) = 2 ∧ (B.card : ℤ) = 2 ∧ ((A ∩ B).card : ℤ) = k} 1 :=
  (quorum_arithmetic_iff (q := ⟨3, 2, 2⟩) (s := Finset.range 3) (by decide) (by decide)
    (by decide)).mpr (by decide)

/-- All replicas to write and to read, as many as an `int` can count: the sum of the quorums wraps
around, and the configuration is not called strongly consistent. -/
theorem quorums_meet_and_wrap :
    isValid ⟨2 ^ 63 - 1, 2 ^ 63 - 1, 2 ^ 63 - 1⟩ = .ok () ∧
      isStronglyConsistent ⟨2 ^ 63 - 1, 2 ^ 63 - 1, 2 ^ 63 - 1⟩ = false ∧
      ∀ A B : Finset ℕ, A ⊆ Finset.range (2 ^ 63 - 1) → B ⊆ Finset.range (2 ^ 63 - 1) →
        A.card = 2 ^ 63 - 1 → B.card = 2 ^ 63 - 1 → (A ∩ B).Nonempty := by
  have hcard : (Finset.range (2 ^ 63 - 1)).card = 2 ^ 63 - 1 := Finset.card_range _
  refine ⟨by decide, by decide, (forall_inter_nonempty_iff hcard.ge hcard.ge).mpr ?_⟩
  rw [hcard]
  decide

end Replication.Quorum
