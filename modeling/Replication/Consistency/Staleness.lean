import Replication.Clock.HLC
import Replication.Library.Newest
import Replication.Storage.VectorClock

/-!
# Consistency · Staleness: bounded staleness

`internal/consistency/causal.go`, `BoundedStaleness`: a read is refused if it lags the newest known
write to its key by more than a number of milliseconds. The lag is a difference of stamps divided by
a million, as if stamps were nanoseconds; they are hybrid-clock values, with the milliseconds above
sixteen bits of counter, so a millisecond is 65536 of their units.

* `BoundedStaleness.validateRead`, `BoundedStaleness.recordWrite` — the calls.
-/

namespace Replication.Consistency

open Library Storage Clock

variable {γ I K V : Type} [DecidableEq K]

/-- Source: `causal.go` `BoundedStaleness`. -/
structure BoundedStaleness (K : Type) where
  maxLagMillis : ℤ
  freshest : K → Option ℤ

/-- "bounded-staleness violation: read of key %s lags the freshest write by %dms (bound %dms)". -/
structure StalenessViolation (K : Type) where
  key : K
  lagMs : ℤ
  bound : ℤ
  deriving DecidableEq, Repr

namespace BoundedStaleness

/-- A bound that is not positive is replaced by a second. Source: `causal.go`
`NewBoundedStaleness`. -/
def new (maxLagMillis : ℤ) : BoundedStaleness K :=
  ⟨if maxLagMillis ≤ 0 then 1000 else maxLagMillis, fun _ => none⟩

/-- The difference of two stamps, one of `int64`, in millions. Source: `causal.go`
`ValidateRead`. -/
def lagMs (newest timestamp : ℤ) : ℤ := ((newest - timestamp).bmod (2 ^ 64)).tdiv 1000000

/-- Source: `causal.go` `ValidateRead`. -/
def validateRead (b : BoundedStaleness K) (_clientID : γ) (proposed : KVEntry I K V) :
    Except (StalenessViolation K) Unit :=
  match b.freshest proposed.key with
  | none => .ok ()
  | some newest =>
    if b.maxLagMillis < lagMs newest proposed.timestamp then
      .error ⟨proposed.key, lagMs newest proposed.timestamp, b.maxLagMillis⟩
    else .ok ()

/-- Reads are not recorded. Source: `causal.go` `RecordRead`. -/
def recordRead (b : BoundedStaleness K) (_clientID : γ) (_entry : Option (KVEntry I K V)) :
    BoundedStaleness K := b

/-- Keep the newest stamp; a key that is missing reads `0`. Source: `causal.go` `RecordWrite`. -/
def recordWrite (b : BoundedStaleness K) (_clientID : γ) :
    Option (KVEntry I K V) → BoundedStaleness K
  | none => b
  | some entry =>
    if (b.freshest entry.key).getD 0 < entry.timestamp then
      { b with freshest := Function.update b.freshest entry.key (some entry.timestamp) }
    else b

/-- Record the writes of clients in their order. -/
def recordAll (b : BoundedStaleness K) (writes : List (γ × KVEntry I K V)) : BoundedStaleness K :=
  writes.foldl (fun b w => b.recordWrite w.1 (some w.2)) b

end BoundedStaleness

/-! ### Stamps -/

/-- A value that the hybrid clock encodes, with the physical part in its range. -/
def IsStamp (ts : ℤ) : Prop :=
  ∃ physical logical, 0 ≤ physical ∧ physical < 2 ^ 47 ∧ 0 ≤ logical ∧ logical ≤ logicalMask ∧
    ts = encode physical logical

lemma IsStamp.bounds {ts : ℤ} (h : IsStamp ts) : 0 ≤ ts ∧ ts < 2 ^ 63 := by
  obtain ⟨physical, logical, hp, hp', hl, hl', rfl⟩ := h
  rw [encode_eq hp hp' hl hl']
  have hbits : (2 : ℤ) ^ logicalBits = 65536 := rfl
  have hmask : logicalMask = 65535 := rfl
  rw [hbits]
  rw [hmask] at hl'
  constructor <;> omega

lemma physicalMillis_eq (ts : ℤ) : HLC.physicalMillis ts = ts / 65536 := rfl

/-- **The lag**, for values without a sign that fit into an `int64`: above the bound iff they are a
million units per millisecond apart. -/
theorem lt_lagMs_iff {bound newest ts : ℤ} (hbound : 0 < bound) (hn : 0 ≤ newest)
    (hn' : newest < 2 ^ 63) (ht : 0 ≤ ts) (ht' : ts < 2 ^ 63) :
    bound < BoundedStaleness.lagMs newest ts ↔ 1000000 * (bound + 1) ≤ newest - ts := by
  unfold BoundedStaleness.lagMs
  rw [Int.bmod_eq_of_le (by omega) (by omega)]
  generalize newest - ts = lag
  rcases le_total 0 lag with hlag | hlag
  · rw [Int.tdiv_eq_ediv_of_nonneg hlag]
    omega
  · have hle := Int.tdiv_nonneg (neg_nonneg.mpr hlag) (by decide : (0 : ℤ) ≤ 1000000)
    rw [Int.neg_tdiv] at hle
    omega

/-- The newest stamp of the writes to a key, `0` without any. -/
def newestStamp (writes : List (γ × KVEntry I K V)) (key : K) : ℤ :=
  ((writes.filter fun w => w.2.key = key).map fun w => w.2.timestamp).foldl max 0

/-- What is kept for a key: nothing for no write above `0`, and the newest stamp else. -/
def keptStamp (newest : ℤ) : Option ℤ := if newest ≤ 0 then none else some newest

/-- **What is kept is the newest stamp.** -/
theorem freshest_recordAll (b : BoundedStaleness K) (writes : List (γ × KVEntry I K V)) (key : K)
    {start : ℤ} (hstart : 0 ≤ start) (hkey : b.freshest key = keptStamp start) :
    (b.recordAll writes).freshest key =
      keptStamp (((writes.filter fun w => w.2.key = key).map fun w => w.2.timestamp).foldl max
        start) := by
  induction writes generalizing b start with
  | nil => exact hkey
  | cons w writes ih =>
    have hget : (keptStamp start).getD 0 = start := by
      unfold keptStamp
      split_ifs with h
      · exact (le_antisymm h hstart).symm
      · rfl
    show ((b.recordWrite w.1 (some w.2)).recordAll writes).freshest key = _
    rw [List.filter_cons]
    by_cases hw : w.2.key = key
    · rw [if_pos (decide_eq_true hw), List.map_cons, List.foldl_cons]
      refine ih _ (hstart.trans (le_max_left _ _)) ?_
      dsimp only [BoundedStaleness.recordWrite]
      rw [hw, hkey, hget]
      split_ifs with hlt
      · dsimp only
        rw [Function.update_self, max_eq_right hlt.le, keptStamp,
          if_neg (not_le.mpr (hstart.trans_lt hlt))]
      · rw [max_eq_left (not_lt.mp hlt)]
        exact hkey
    · rw [if_neg (by simpa using hw)]
      refine ih _ hstart ?_
      dsimp only [BoundedStaleness.recordWrite]
      split_ifs
      · dsimp only
        rw [Function.update_of_ne (Ne.symm hw)]
        exact hkey
      · exact hkey

lemma maxLagMillis_recordAll (b : BoundedStaleness K) (writes : List (γ × KVEntry I K V)) :
    (b.recordAll writes).maxLagMillis = b.maxLagMillis := by
  refine writes.foldlRecOn (motive := (BoundedStaleness.maxLagMillis · = b.maxLagMillis)) _ rfl
    fun b' h w _ => ?_
  dsimp only [BoundedStaleness.recordWrite]
  split_ifs <;> exact h

/-! ### Verdicts -/

/-- The newest recorded write to the key of a read is more than the bound above it, in
milliseconds. -/
def TooStale (bound : ℤ) (writes : List (γ × KVEntry I K V)) (proposed : KVEntry I K V) : Prop :=
  ∃ w ∈ writes, w.2.key = proposed.key ∧
    (∀ w' ∈ writes, w'.2.key = proposed.key → w'.2.timestamp ≤ w.2.timestamp) ∧
    bound < HLC.physicalMillis w.2.timestamp - HLC.physicalMillis proposed.timestamp

/-- The lag is within the bound in milliseconds, or above it in millions of units as well. -/
def unitsAgree (bound newest ts : ℤ) : Bool :=
  HLC.physicalMillis newest - HLC.physicalMillis ts ≤ bound ∨ 1000000 * (bound + 1) ≤ newest - ts

section verdicts

variable {bound : ℤ} {writes : List (γ × KVEntry I K V)} {proposed : KVEntry I K V}

/-- The newest stamp is zero or that of a write. -/
lemma newestStamp_cases (writes : List (γ × KVEntry I K V)) (key : K) :
    newestStamp writes key = 0 ∨
      ∃ w ∈ writes, w.2.key = key ∧ w.2.timestamp = newestStamp writes key := by
  rcases foldl_max_mem ((writes.filter fun w => w.2.key = key).map fun w => w.2.timestamp) 0 with
    h | h
  · exact .inl h
  · obtain ⟨w, hw, hts⟩ := List.mem_map.mp h
    rw [List.mem_filter, decide_eq_true_eq] at hw
    exact .inr ⟨w, hw.1, hw.2, hts⟩

lemma le_newestStamp {w : γ × KVEntry I K V} (hw : w ∈ writes) :
    w.2.timestamp ≤ newestStamp writes w.2.key := by
  refine (le_foldl_max _ 0).2 _ (List.mem_map.mpr ⟨w, List.mem_filter.mpr ⟨hw, ?_⟩, rfl⟩)
  exact decide_eq_true rfl

lemma newestStamp_nonneg (writes : List (γ × KVEntry I K V)) (key : K) :
    0 ≤ newestStamp writes key :=
  (le_foldl_max _ 0).1

lemma newestStamp_lt (hwrites : ∀ w ∈ writes, IsStamp w.2.timestamp) (key : K) :
    newestStamp writes key < 2 ^ 63 := by
  rcases newestStamp_cases writes key with h | ⟨w, hw, -, hts⟩
  · rw [h]
    decide
  · rw [← hts]
    exact (hwrites w hw).bounds.2

/-- The newest stamp decides. -/
lemma tooStale_iff (hbound : 0 < bound) (hwrites : ∀ w ∈ writes, IsStamp w.2.timestamp)
    (hread : IsStamp proposed.timestamp) :
    TooStale bound writes proposed ↔
      bound < HLC.physicalMillis (newestStamp writes proposed.key) -
        HLC.physicalMillis proposed.timestamp := by
  constructor
  · rintro ⟨w, hw, hkey, hmax, hlt⟩
    have hle := le_newestStamp hw
    rw [hkey] at hle
    have hnewest : newestStamp writes proposed.key = w.2.timestamp := by
      refine le_antisymm ?_ hle
      rcases newestStamp_cases writes proposed.key with h | ⟨w', hw', hkey', hts⟩
      · rw [h]
        exact (hwrites w hw).bounds.1
      · rw [← hts]
        exact hmax w' hw' hkey'
    rwa [hnewest]
  · intro hlt
    rcases newestStamp_cases writes proposed.key with h | ⟨w, hw, hkey, hts⟩
    · have hnn := hread.bounds.1
      rw [h, physicalMillis_eq, physicalMillis_eq] at hlt
      omega
    · refine ⟨w, hw, hkey, fun w' hw' hkey' => ?_, by rwa [hts]⟩
      rw [hts, ← hkey']
      exact le_newestStamp hw'

lemma validateRead_ne_ok_iff (hbound : 0 < bound)
    (hwrites : ∀ w ∈ writes, IsStamp w.2.timestamp) (hread : IsStamp proposed.timestamp)
    (client : γ) :
    ((BoundedStaleness.new bound).recordAll writes).validateRead client proposed ≠ .ok () ↔
      1000000 * (bound + 1) ≤ newestStamp writes proposed.key - proposed.timestamp := by
  obtain ⟨hts, hts'⟩ := hread.bounds
  have hnn := newestStamp_nonneg writes proposed.key
  have hlt := newestStamp_lt hwrites proposed.key
  have hkept : ((BoundedStaleness.new bound).recordAll writes).freshest proposed.key =
      keptStamp (newestStamp writes proposed.key) :=
    freshest_recordAll (BoundedStaleness.new bound) writes proposed.key le_rfl rfl
  have hmax : ((BoundedStaleness.new bound).recordAll writes).maxLagMillis = bound :=
    (maxLagMillis_recordAll _ writes).trans (if_neg (not_le.mpr hbound))
  rw [← lt_lagMs_iff hbound hnn hlt hts hts']
  unfold BoundedStaleness.validateRead
  rw [hkept, hmax, keptStamp]
  by_cases hzero : newestStamp writes proposed.key ≤ 0
  · -- nothing is kept, and nothing lags behind `0`
    have hnone : ¬ bound < BoundedStaleness.lagMs (newestStamp writes proposed.key)
        proposed.timestamp := by
      rw [lt_lagMs_iff hbound hnn hlt hts hts']
      omega
    simp [hzero, hnone]
  · by_cases hlag : bound < BoundedStaleness.lagMs (newestStamp writes proposed.key)
        proposed.timestamp
    · simp [hzero, hlag]
    · simp [hzero, hlag]

lemma lt_physicalMillis_sub {newest ts : ℤ} (hbound : 0 < bound)
    (h : 1000000 * (bound + 1) ≤ newest - ts) :
    bound < HLC.physicalMillis newest - HLC.physicalMillis ts := by
  rw [physicalMillis_eq, physicalMillis_eq]
  omega

/-- **Bounded staleness**: for a positive bound, any history of writes and any read, all with
hybrid-clock stamps, the read is refused exactly when the newest write to its key is more than the
bound above it in milliseconds — iff the lag is within the bound or the stamps are a million units
per millisecond apart. -/
theorem verdict_correct_iff (hbound : 0 < bound) (hwrites : ∀ w ∈ writes, IsStamp w.2.timestamp)
    (hread : IsStamp proposed.timestamp) (client : γ) :
    (((BoundedStaleness.new bound).recordAll writes).validateRead client proposed ≠ .ok () ↔
        TooStale bound writes proposed) ↔
      unitsAgree bound (newestStamp writes proposed.key) proposed.timestamp = true := by
  rw [validateRead_ne_ok_iff hbound hwrites hread, tooStale_iff hbound hwrites hread, unitsAgree,
    decide_eq_true_eq]
  constructor
  · intro h
    rcases le_or_gt (HLC.physicalMillis (newestStamp writes proposed.key) -
      HLC.physicalMillis proposed.timestamp) bound with hle | hlt
    · exact .inl hle
    · exact .inr (h.mpr hlt)
  · rintro (hle | hfar)
    · refine iff_of_false (fun hfar => ?_) (not_lt.mpr hle)
      exact absurd (lt_physicalMillis_sub hbound hfar) (not_lt.mpr hle)
    · exact iff_of_true hfar (lt_physicalMillis_sub hbound hfar)

end verdicts

/-- An entry of key `7` with a stamp of the given milliseconds. -/
private def stampedAt (millis : ℤ) : KVEntry Bool ℕ ℕ :=
  ⟨7, 0, .empty, encode millis 0, false, false, 1⟩

private lemma isStamp_stampedAt {millis : ℤ} (h : 0 ≤ millis) (h' : millis < 2 ^ 47) :
    IsStamp (stampedAt millis).timestamp :=
  ⟨millis, 0, h, h', le_rfl, by decide, rfl⟩

/-- A read half a second old is within a bound of a second, and one that is a minute old is
refused. -/
theorem verdict_correct_minute :
    (((BoundedStaleness.new 1000).recordAll [((), stampedAt 60500)]).validateRead ()
          (stampedAt 60000) ≠ .ok () ↔
        TooStale 1000 [((), stampedAt 60500)] (stampedAt 60000)) ∧
      (((BoundedStaleness.new 1000).recordAll [((), stampedAt 60500)]).validateRead ()
          (stampedAt 500) ≠ .ok () ↔
        TooStale 1000 [((), stampedAt 60500)] (stampedAt 500)) := by
  have hwrites : ∀ w ∈ [((), stampedAt 60500)], IsStamp w.2.timestamp := by
    intro w hw
    obtain rfl := List.mem_singleton.mp hw
    exact isStamp_stampedAt (by decide) (by decide)
  refine ⟨(verdict_correct_iff (by decide) hwrites (isStamp_stampedAt ?_ ?_) ()).mpr ?_,
    (verdict_correct_iff (by decide) hwrites (isStamp_stampedAt ?_ ?_) ()).mpr ?_⟩
  all_goals decide

/-- A read that is ten seconds behind the newest write is accepted under a bound of a second. -/
theorem stale_read_accepted :
    IsStamp (stampedAt 20000).timestamp ∧ IsStamp (stampedAt 10000).timestamp ∧
      TooStale 1000 [((), stampedAt 20000)] (stampedAt 10000) ∧
      ((BoundedStaleness.new 1000).recordAll [((), stampedAt 20000)]).validateRead ()
        (stampedAt 10000) = .ok () := by
  refine ⟨isStamp_stampedAt (by decide) (by decide), isStamp_stampedAt (by decide) (by decide),
    ⟨_, List.mem_singleton_self _, rfl, fun w' hw' _ => ?_, by decide⟩, by rfl⟩
  rw [List.mem_singleton.mp hw']

end Replication.Consistency
