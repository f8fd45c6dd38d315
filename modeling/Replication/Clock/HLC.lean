import Mathlib.Algebra.Order.Ring.Int

/-!
# Clock · HLC: the hybrid logical clock

`internal/clock/hlc.go`. A clock holds a physical part in milliseconds and a logical counter; the
wall clock is read from outside, in nanoseconds, and an artificial skew is added to it. Stamps are
packed into one `int64`, the physical part in the upper 48 bits: `encode` wraps around as the
machine integer does, and is the plain sum of the two parts while the physical one is below `2 ^ 47`
(`encode_eq`). The skewed wall clock wraps around as well, and so is far below that bound in
milliseconds (`HLC.wallPhysical_lt`).
-/

namespace Replication.Clock

/-- Source: `hlc.go` `logicalBits`. -/
def logicalBits : ℕ := 16

/-- Source: `hlc.go` `logicalMask`. -/
def logicalMask : ℤ := 2 ^ logicalBits - 1

/-- A hybrid logical clock. Source: `hlc.go` `HLC`. -/
structure HLC where
  /-- The last physical part given out, in milliseconds. -/
  lastPhysical : ℤ
  logical : ℤ
  /-- The artificial offset of the wall clock, in nanoseconds. -/
  skewNanos : ℤ
  deriving DecidableEq, Repr

/-- Pack the two parts into an `int64`: the shift drops the bits above the 64th. Source: `hlc.go`
`encode`. -/
def encode (physical logical : ℤ) : ℤ :=
  (physical * 2 ^ logicalBits).bmod (2 ^ 64) + logical % 2 ^ logicalBits

/-- The loop that carries an overflowing counter into the physical part, in at most `k` rounds.
Source: `hlc.go` `Now`, `Update`. -/
def carryRounds : ℕ → ℤ → ℤ → ℤ × ℤ
  | 0, physical, logical => (physical, logical)
  | k + 1, physical, logical =>
    if logicalMask < logical then carryRounds k (physical + 1) (logical - (logicalMask + 1))
    else (physical, logical)

/-- The whole loop: every round lowers the counter. -/
def carry (physical logical : ℤ) : ℤ × ℤ := carryRounds logical.toNat physical logical

namespace HLC

/-- Source: `hlc.go` `NewHLC`. -/
def new : HLC := ⟨0, 0, 0⟩

/-- The wall clock with the skew, in milliseconds; the sum is one of `int64`. Source: `hlc.go`
`wallPhysical`. -/
def wallPhysical (h : HLC) (wallNanos : ℤ) : ℤ :=
  ((wallNanos + h.skewNanos).bmod (2 ^ 64)).tdiv 1000000

/-- The next stamp. Source: `hlc.go` `Now`. -/
def now (h : HLC) (wallNanos : ℤ) : HLC × ℤ :=
  let wall := h.wallPhysical wallNanos
  let pl := if h.lastPhysical < wall then (wall, 0) else carry h.lastPhysical (h.logical + 1)
  ({ h with lastPhysical := pl.1, logical := pl.2 }, encode pl.1 pl.2)

/-- Merge a received stamp. Source: `hlc.go` `Update`. -/
def update (h : HLC) (wallNanos remote : ℤ) : HLC × ℤ :=
  let remotePhysical := remote / 2 ^ logicalBits
  let remoteLogical := remote % 2 ^ logicalBits
  let newPhysical := max (max h.lastPhysical (h.wallPhysical wallNanos)) remotePhysical
  let logical :=
    if newPhysical = h.lastPhysical ∧ newPhysical = remotePhysical then
      max h.logical remoteLogical + 1
    else if newPhysical = h.lastPhysical then h.logical + 1
    else if newPhysical = remotePhysical then remoteLogical + 1
    else 0
  let pl := carry newPhysical logical
  ({ h with lastPhysical := pl.1, logical := pl.2 }, encode pl.1 pl.2)

/-- Source: `hlc.go` `SetSkewMillis`. -/
def setSkewMillis (h : HLC) (ms : ℤ) : HLC := { h with skewNanos := (ms * 1000000).bmod (2 ^ 64) }

/-- The physical part of a stamp. Source: `hlc.go` `PhysicalMillis`. -/
def physicalMillis (ts : ℤ) : ℤ := ts / 2 ^ logicalBits

/-! ### Values and ranges -/

/-- The clock as one number: the stamp of its two parts. -/
def value (h : HLC) : ℤ := h.lastPhysical * 2 ^ logicalBits + h.logical

/-- The physical part is not negative and the counter fits its bits. -/
structure Valid (h : HLC) : Prop where
  physical : 0 ≤ h.lastPhysical
  logical : 0 ≤ h.logical ∧ h.logical ≤ logicalMask

/-- The bound below which a physical part leaves room for a carry. -/
def physicalBound : ℤ := 2 ^ 47 - 1

lemma wallPhysical_lt (h : HLC) (wallNanos : ℤ) : h.wallPhysical wallNanos < physicalBound := by
  have hlt : (wallNanos + h.skewNanos).bmod (2 ^ 64) < (2 ^ 64 + 1) / 2 :=
    Int.bmod_lt (by decide)
  unfold wallPhysical physicalBound
  generalize (wallNanos + h.skewNanos).bmod (2 ^ 64) = w at hlt ⊢
  rcases le_total 0 w with hw | hw
  · rw [Int.tdiv_eq_ediv_of_nonneg hw]
    omega
  · have hnn := Int.tdiv_nonneg (neg_nonneg.mpr hw) (by decide : (0 : ℤ) ≤ 1000000)
    rw [Int.neg_tdiv] at hnn
    omega

/-- The clock and a wall reading are in the physical range of stamps. -/
def inRange (h : HLC) (wallNanos : ℤ) : Bool :=
  h.lastPhysical < physicalBound ∧ h.wallPhysical wallNanos < physicalBound

lemma valid_new : new.Valid := ⟨le_rfl, le_rfl, by decide⟩

end HLC

/-- **Packing is exact** while the physical part is in range. -/
theorem encode_eq {physical logical : ℤ} (hp : 0 ≤ physical) (hp' : physical < 2 ^ 47)
    (hl : 0 ≤ logical) (hl' : logical ≤ logicalMask) :
    encode physical logical = physical * 2 ^ logicalBits + logical := by
  unfold encode
  rw [Int.bmod_eq_of_le]
  · rw [Int.emod_eq_of_lt hl]
    unfold logicalMask at hl'
    omega
  · unfold logicalBits
    omega
  · unfold logicalBits
    omega

lemma carry_spec (physical : ℤ) {logical : ℤ} (hl : 0 ≤ logical) (hl' : logical ≤ logicalMask + 1) :
    (carry physical logical).1 * 2 ^ logicalBits + (carry physical logical).2 =
        physical * 2 ^ logicalBits + logical ∧
      0 ≤ (carry physical logical).2 ∧ (carry physical logical).2 ≤ logicalMask ∧
      physical ≤ (carry physical logical).1 ∧ (carry physical logical).1 ≤ physical + 1 := by
  unfold carry
  have hmask : logicalMask = 65535 := rfl
  have hbits : (2 : ℤ) ^ logicalBits = 65536 := rfl
  rw [hmask] at hl'
  by_cases hover : logicalMask < logical
  · -- the counter is one above the mask: one round, then the loop ends
    have heq : logical = 65536 := by omega
    subst heq
    have hround : carryRounds (Int.toNat 65536) physical 65536 = (physical + 1, 0) := by
      show carryRounds (65535 + 1) physical 65536 = _
      rw [carryRounds, if_pos hover]
      show carryRounds (65534 + 1) (physical + 1) (65536 - (logicalMask + 1)) = _
      rw [carryRounds, if_neg (by decide)]
      rfl
    rw [hround, hbits, hmask]
    refine ⟨?_, ?_, ?_, ?_, ?_⟩ <;> dsimp only <;> omega
  · have hround : ∀ k, carryRounds k physical logical = (physical, logical) := by
      intro k
      cases k with
      | zero => rfl
      | succ => rw [carryRounds, if_neg hover]
    rw [hround]
    exact ⟨rfl, hl, not_lt.mp hover, le_rfl, by dsimp only; omega⟩

namespace HLC

variable {h : HLC} {t : ℤ}

lemma value_nonneg (hv : h.Valid) : 0 ≤ h.value := by
  obtain ⟨hp, hl, -⟩ := hv
  unfold value
  have hbits : (2 : ℤ) ^ logicalBits = 65536 := rfl
  rw [hbits]
  omega

/-- A hybrid clock that a step leaves well formed and does not set back. -/
structure Advances (h h' : HLC) : Prop where
  valid : h'.Valid
  le : h.value ≤ h'.value

/-- **A new stamp** is the new value of the clock, and lies above the old one. -/
theorem now_spec (hv : h.Valid) (hr : h.inRange t = true) :
    (h.now t).1.Valid ∧ (h.now t).2 = (h.now t).1.value ∧ h.value < (h.now t).2 := by
  obtain ⟨hlast, hwall⟩ := of_decide_eq_true hr
  obtain ⟨hp, hl, hl'⟩ := hv
  have hbound : physicalBound = 2 ^ 47 - 1 := rfl
  dsimp only [now, value]
  split_ifs with hlt
  · have hzero : (0 : ℤ) ≤ logicalMask := by decide
    have henc := encode_eq (hp.trans hlt.le) (by omega) le_rfl hzero
    refine ⟨⟨hp.trans hlt.le, le_rfl, hzero⟩, henc, ?_⟩
    dsimp only
    rw [henc]
    have hmask : logicalMask = 65535 := rfl
    have hbits : (2 : ℤ) ^ logicalBits = 65536 := rfl
    rw [hbits]
    omega
  · obtain ⟨hsum, hnn, hle, hge, hnext⟩ :=
      carry_spec h.lastPhysical (by omega : 0 ≤ h.logical + 1) (by omega)
    have henc := encode_eq (hp.trans hge) (by omega) hnn hle
    refine ⟨⟨hp.trans hge, hnn, hle⟩, henc, ?_⟩
    rw [henc, hsum]
    omega

/-- The parts that a merge carries: the physical part is one of three, and together with the new
counter it lies above the clock and above the stamp. -/
lemma exists_update_eq (hv : h.Valid) (remote : ℤ) :
    ∃ np lg, h.update t remote =
        ({ h with lastPhysical := (carry np lg).1, logical := (carry np lg).2 },
          encode (carry np lg).1 (carry np lg).2) ∧
      h.lastPhysical ≤ np ∧
      (np = h.lastPhysical ∨ np = h.wallPhysical t ∨ np = physicalMillis remote) ∧
      0 ≤ lg ∧ lg ≤ logicalMask + 1 ∧
      h.value < np * 2 ^ logicalBits + lg ∧ remote < np * 2 ^ logicalBits + lg := by
  obtain ⟨hp, hl, hl'⟩ := hv
  have hmask : logicalMask = 65535 := rfl
  have hbits : (2 : ℤ) ^ logicalBits = 65536 := rfl
  refine ⟨_, _, rfl, ?_⟩
  unfold physicalMillis value
  rw [hbits]
  generalize h.wallPhysical t = wall
  have hmod := Int.emod_nonneg remote (by decide : (65536 : ℤ) ≠ 0)
  have hmod' := Int.emod_lt_of_pos remote (by decide : (0 : ℤ) < 65536)
  have hdiv := Int.mul_ediv_add_emod remote 65536
  generalize remote / 65536 = rp at *
  generalize remote % 65536 = rl at *
  generalize hnp : max (max h.lastPhysical wall) rp = np
  generalize hlg : (if np = h.lastPhysical ∧ np = rp then max h.logical rl + 1
    else if np = h.lastPhysical then h.logical + 1
    else if np = rp then rl + 1 else 0) = lg
  refine ⟨by omega, by omega, ?_⟩
  -- the new counter is above both counters that belong to the new physical part
  rw [← hlg]
  split_ifs <;> omega

/-- **Merging a stamp** leaves the clock above its old value and above the stamp. -/
theorem update_spec (hv : h.Valid) (remote : ℤ) :
    (h.update t remote).1.Valid ∧ h.value < (h.update t remote).1.value ∧
      remote < (h.update t remote).1.value := by
  obtain ⟨np, lg, heq, hge, -, hlg, hlg', hval, hrem⟩ := exists_update_eq (t := t) hv remote
  obtain ⟨hsum, hnn, hle, hge', -⟩ := carry_spec np hlg hlg'
  rw [heq]
  refine ⟨⟨(hv.physical.trans hge).trans hge', hnn, hle⟩, ?_, ?_⟩
  · exact hval.trans_eq hsum.symm
  · exact hrem.trans_eq hsum.symm

/-- **The answer to a merge** is the new value of the clock, if clock and stamp are in range. -/
theorem update_stamp (hv : h.Valid) {remote : ℤ} (hlast : h.lastPhysical < physicalBound)
    (hrem : physicalMillis remote < physicalBound) :
    (h.update t remote).2 = (h.update t remote).1.value := by
  obtain ⟨np, lg, heq, hge, hnp, hlg, hlg', -, -⟩ := exists_update_eq (t := t) hv remote
  obtain ⟨-, hnn, hle, hge', hnext⟩ := carry_spec np hlg hlg'
  have hwall := h.wallPhysical_lt t
  have hbound : physicalBound = 2 ^ 47 - 1 := rfl
  have hlt : np < physicalBound := by
    rcases hnp with rfl | rfl | rfl
    · exact hlast
    · exact hwall
    · exact hrem
  rw [heq]
  exact encode_eq ((hv.physical.trans hge).trans hge') (by omega) hnn hle

end HLC

end Replication.Clock
