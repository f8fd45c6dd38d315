import Replication.Library.Run
import Replication.Storage.VectorClock

/-!
# Consistency · Session: the session guarantees

`internal/consistency/causal.go`, `read_your_writes.go` and `monotonic_reads.go`. Three trackers of
what a client has seen: each keeps a vector clock per client and key, the join of the clocks it
recorded, and accepts a read whose clock dominates it. They differ in what they record: reads,
writes or both.

* `CausalConsistency`, `ReadYourWrites`, `MonotonicReads` — the trackers.
-/

set_option linter.unusedSectionVars false

namespace Replication.Consistency

open Library Storage Function

variable {γ I K V : Type} [DecidableEq γ] [DecidableEq I] [DecidableEq K]

/-- The errors of `ValidateRead`, with the client, the clock that was required, the key and the
clock of the read. -/
inductive Violation (γ I K : Type) where
  /-- "causal violation: client %s already observed vclock %s for key %s, read returned older
  %s". -/
  | causal (client : γ) (required : VectorClock I) (key : K) (got : VectorClock I)
  /-- "RYW violation: client %s wrote vclock %s for key %s, read returned %s". -/
  | readYourWrites (client : γ) (required : VectorClock I) (key : K) (got : VectorClock I)
  /-- "monotonic read violation: client %s already saw vclock %s for key %s, now got %s". -/
  | monotonicRead (client : γ) (required : VectorClock I) (key : K) (got : VectorClock I)

/-! ### What a tracker keeps -/

/-- A Go `map[string]map[string]VectorClock`: per client and key, the clock that reads have to
dominate. -/
abbrev Requirements (γ I K : Type) : Type := γ → Option (K → Option (VectorClock I))

namespace Requirements

/-- Join the clock of an entry into what is required of a client, making the maps that are missing.
The same lines in `causal.go` `record`, `read_your_writes.go` `RecordWrite` and `monotonic_reads.go`
`RecordRead`. -/
def record (m : Requirements γ I K) (clientID : γ) (entry : KVEntry I K V) : Requirements γ I K :=
  let keys := (m clientID).getD fun _ => none
  let cur := (keys entry.key).getD .empty
  Function.update m clientID
    (some (Function.update keys entry.key (some (cur.merge entry.vclock))))

/-- Nothing is required, or the clock of the read dominates what is. The same lines in the three
`ValidateRead`. -/
def check (m : Requirements γ I K) (violation : γ → VectorClock I → K → VectorClock I →
    Violation γ I K) (clientID : γ) (proposed : KVEntry I K V) : Except (Violation γ I K) Unit :=
  match m clientID with
  | none => .ok ()
  | some keys =>
    match keys proposed.key with
    | none => .ok ()
    | some required =>
      if proposed.vclock.dominates required then .ok ()
      else .error (violation clientID required proposed.key proposed.vclock)

/-- What a client requires of a key. -/
def required (m : Requirements γ I K) (clientID : γ) (key : K) : Option (VectorClock I) :=
  (m clientID).bind fun keys => keys key

/-- A clock is not below what is required of a client for a key. -/
def Accepts (m : Requirements γ I K) (clientID : γ) (key : K) (vc : VectorClock I) : Prop :=
  ∀ r ∈ m.required clientID key, r.count ≤ vc.count

variable {m : Requirements γ I K} {clientID client : γ} {key : K} {vc : VectorClock I}

/-- A check passes if the requirement is met. -/
lemma check_eq_ok_iff {violation : γ → VectorClock I → K → VectorClock I → Violation γ I K}
    {proposed : KVEntry I K V} :
    m.check violation clientID proposed = .ok () ↔
      m.Accepts clientID proposed.key proposed.vclock := by
  unfold check Accepts required
  cases m clientID with
  | none => simp
  | some keys =>
    dsimp only [Option.bind_some]
    cases keys proposed.key with
    | none => simp
    | some r =>
      have hdom : proposed.vclock.dominates r = true ↔ _ := VectorClock.dominates_iff
      by_cases h : proposed.vclock.dominates r = true
      · simp [h, hdom.mp h]
      · simp [h, mt hdom.mpr h]

/-- A record is merged into the requirement of its key. -/
lemma required_record (entry : KVEntry I K V) :
    (m.record clientID entry).required client key =
      if client = clientID ∧ key = entry.key then
        some (((m.required client key).getD .empty).merge entry.vclock)
      else m.required client key := by
  unfold record required
  by_cases hc : client = clientID
  · subst hc
    rw [update_self, Option.bind_some]
    by_cases hk : key = entry.key
    · subst hk
      rw [update_self, if_pos ⟨rfl, rfl⟩]
      cases m client <;> rfl
    · rw [update_of_ne hk, if_neg fun h => hk h.2]
      cases m client <;> rfl
  · rw [update_of_ne hc, if_neg fun h => hc h.1]

/-- **Recording adds one condition**: the clock of the entry is a lower bound. -/
theorem accepts_record (entry : KVEntry I K V) :
    (m.record clientID entry).Accepts client key vc ↔
      m.Accepts client key vc ∧
        (clientID = client → entry.key = key → entry.vclock.count ≤ vc.count) := by
  unfold Accepts
  rw [required_record]
  by_cases h : client = clientID ∧ key = entry.key
  · obtain ⟨rfl, rfl⟩ := h
    rw [if_pos ⟨rfl, rfl⟩]
    cases m.required client entry.key with
    | none =>
      have hzero : (VectorClock.empty : VectorClock I).count ≤ vc.count := fun _ => Nat.zero_le _
      simp [VectorClock.count_merge, hzero]
    | some => simp [VectorClock.count_merge]
  · rw [if_neg h]
    refine (and_iff_left ?_).symm
    rintro rfl rfl
    exact absurd ⟨rfl, rfl⟩ h

lemma accepts_empty : Accepts (fun _ => none : Requirements γ I K) client key vc :=
  fun _ hr => absurd hr (Option.not_mem_none _)

end Requirements

/-! ### The trackers -/

/-- Source: `causal.go` `CausalConsistency`. -/
structure CausalConsistency (γ I K : Type) where
  observed : Requirements γ I K

namespace CausalConsistency

/-- Source: `causal.go` `NewCausalConsistency`. -/
def new : CausalConsistency γ I K := ⟨fun _ => none⟩

/-- Source: `causal.go` `ValidateRead`. -/
def validateRead (c : CausalConsistency γ I K) (clientID : γ) (proposed : KVEntry I K V) :
    Except (Violation γ I K) Unit :=
  c.observed.check .causal clientID proposed

/-- A missing entry is ignored, as is one without a clock, which entries have here. Source:
`causal.go` `record`. -/
def record (c : CausalConsistency γ I K) (clientID : γ) :
    Option (KVEntry I K V) → CausalConsistency γ I K
  | none => c
  | some entry => ⟨c.observed.record clientID entry⟩

/-- Source: `causal.go` `RecordRead`. -/
def recordRead (c : CausalConsistency γ I K) (clientID : γ) (entry : Option (KVEntry I K V)) :
    CausalConsistency γ I K :=
  c.record clientID entry

/-- Source: `causal.go` `RecordWrite`. -/
def recordWrite (c : CausalConsistency γ I K) (clientID : γ) (entry : Option (KVEntry I K V)) :
    CausalConsistency γ I K :=
  c.record clientID entry

end CausalConsistency

/-- Source: `read_your_writes.go` `ReadYourWrites`. -/
structure ReadYourWrites (γ I K : Type) where
  clientWrites : Requirements γ I K

namespace ReadYourWrites

/-- Source: `read_your_writes.go` `NewReadYourWrites`. -/
def new : ReadYourWrites γ I K := ⟨fun _ => none⟩

/-- Source: `read_your_writes.go` `ValidateRead`. -/
def validateRead (r : ReadYourWrites γ I K) (clientID : γ) (proposed : KVEntry I K V) :
    Except (Violation γ I K) Unit :=
  r.clientWrites.check .readYourWrites clientID proposed

/-- Reads are not recorded. Source: `read_your_writes.go` `RecordRead`. -/
def recordRead (r : ReadYourWrites γ I K) (_clientID : γ) (_entry : KVEntry I K V) :
    ReadYourWrites γ I K := r

/-- Source: `read_your_writes.go` `RecordWrite`. -/
def recordWrite (r : ReadYourWrites γ I K) (clientID : γ) (entry : KVEntry I K V) :
    ReadYourWrites γ I K :=
  ⟨r.clientWrites.record clientID entry⟩

end ReadYourWrites

/-- Source: `monotonic_reads.go` `MonotonicReads`. -/
structure MonotonicReads (γ I K : Type) where
  clientReads : Requirements γ I K

namespace MonotonicReads

/-- Source: `monotonic_reads.go` `NewMonotonicReads`. -/
def new : MonotonicReads γ I K := ⟨fun _ => none⟩

/-- Source: `monotonic_reads.go` `ValidateRead`. -/
def validateRead (m : MonotonicReads γ I K) (clientID : γ) (proposed : KVEntry I K V) :
    Except (Violation γ I K) Unit :=
  m.clientReads.check .monotonicRead clientID proposed

/-- Source: `monotonic_reads.go` `RecordRead`. -/
def recordRead (m : MonotonicReads γ I K) (clientID : γ) (entry : KVEntry I K V) :
    MonotonicReads γ I K :=
  ⟨m.clientReads.record clientID entry⟩

/-- Writes are not recorded. Source: `monotonic_reads.go` `RecordWrite`. -/
def recordWrite (m : MonotonicReads γ I K) (_clientID : γ) (_entry : KVEntry I K V) :
    MonotonicReads γ I K := m

end MonotonicReads

/-! ### Histories -/

/-- A read or a write of a client. -/
structure Access (γ I K V : Type) where
  clientID : γ
  entry : KVEntry I K V
  isWrite : Bool

/-- The three trackers of sessions. -/
structure Trackers (γ I K : Type) where
  causal : CausalConsistency γ I K
  readYourWrites : ReadYourWrites γ I K
  monotonicReads : MonotonicReads γ I K

namespace Trackers

/-- The trackers of a new cluster. -/
def new : Trackers γ I K := ⟨.new, .new, .new⟩

/-- Record an access with all three trackers. -/
def step (s : Trackers γ I K) (a : Access γ I K V) : Trackers γ I K :=
  if a.isWrite then
    ⟨s.causal.recordWrite a.clientID (some a.entry),
      s.readYourWrites.recordWrite a.clientID a.entry,
      s.monotonicReads.recordWrite a.clientID a.entry⟩
  else
    ⟨s.causal.recordRead a.clientID (some a.entry),
      s.readYourWrites.recordRead a.clientID a.entry,
      s.monotonicReads.recordRead a.clientID a.entry⟩

end Trackers

/-- The clock of a read is, in every component, at least that of an access, if that is one of the
client and key. -/
def Access.Below (a : Access γ I K V) (clientID : γ) (proposed : KVEntry I K V) : Prop :=
  a.clientID = clientID → a.entry.key = proposed.key →
    ∀ i, a.entry.vclock.count i ≤ proposed.vclock.count i

section histories

variable {clientID : γ} {proposed : KVEntry I K V}

/-- Record accesses one after the other. -/
def recordAll (m : Requirements γ I K) (as : List (Access γ I K V)) : Requirements γ I K :=
  as.foldl (fun m a => m.record a.clientID a.entry) m

section

variable (as : List (Access γ I K V))

/-- **What recorded accesses require**: all of them are below the read, in whatever order. -/
theorem accepts_recordAll (m : Requirements γ I K) :
    (recordAll m as).Accepts clientID proposed.key proposed.vclock ↔
      m.Accepts clientID proposed.key proposed.vclock ∧ ∀ a ∈ as, a.Below clientID proposed := by
  induction as generalizing m with
  | nil => simp [recordAll]
  | cons a as ih =>
    rw [recordAll, List.foldl_cons, ← recordAll, ih, List.forall_mem_cons, ← and_assoc]
    exact and_congr_left fun _ => Requirements.accepts_record a.entry

/-- **A tracker requires the accesses that it records.** -/
theorem accepts_run {f : Trackers γ I K → Requirements γ I K} {p : Access γ I K V → Bool}
    (hnew : f .new = fun _ => none) (hstep : ∀ s a,
      f (s.step a) = if p a then (f s).record a.clientID a.entry else f s) :
    (f (run Trackers.step .new as)).Accepts clientID proposed.key proposed.vclock ↔
      ∀ a ∈ as, p a = true → a.Below clientID proposed := by
  have hrun : ∀ s, f (run Trackers.step s as) = recordAll (f s) (as.filter p) := by
    intro s
    induction as generalizing s with
    | nil => rfl
    | cons a as ih =>
      rw [run_cons, ih, hstep, List.filter_cons]
      split_ifs <;> rfl
  rw [hrun, hnew, accepts_recordAll, and_iff_right Requirements.accepts_empty]
  simp only [List.mem_filter, and_imp]

/-- The causal check is against every access of the client. -/
lemma causal_ok_iff :
    (run Trackers.step Trackers.new as).causal.validateRead clientID proposed = .ok () ↔
      ∀ a ∈ as, a.Below clientID proposed := by
  unfold CausalConsistency.validateRead
  rw [Requirements.check_eq_ok_iff, accepts_run (f := fun s => s.causal.observed)
    (p := fun _ => true) as rfl fun s a => by unfold Trackers.step; cases a.isWrite <;> rfl]
  simp only [true_imp_iff]

/-- This check is against the writes only. -/
lemma readYourWrites_ok_iff :
    (run Trackers.step Trackers.new as).readYourWrites.validateRead clientID proposed = .ok () ↔
      ∀ a ∈ as, a.isWrite = true → a.Below clientID proposed := by
  unfold ReadYourWrites.validateRead
  rw [Requirements.check_eq_ok_iff, accepts_run (f := fun s => s.readYourWrites.clientWrites)
    (p := fun a => a.isWrite) as rfl fun s a => by unfold Trackers.step; cases a.isWrite <;> rfl]

/-- This check is against the reads only. -/
lemma monotonicReads_ok_iff :
    (run Trackers.step Trackers.new as).monotonicReads.validateRead clientID proposed = .ok () ↔
      ∀ a ∈ as, a.isWrite = false → a.Below clientID proposed := by
  unfold MonotonicReads.validateRead
  rw [Requirements.check_eq_ok_iff, accepts_run (f := fun s => s.monotonicReads.clientReads)
    (p := fun a => !a.isWrite) as rfl fun s a => by unfold Trackers.step; cases a.isWrite <;> rfl]
  simp only [Bool.not_eq_true']

end

/-- **The session guarantees compose.** After any history, the causal tracker accepts a read iff the
trackers of read-your-writes and of monotonic reads both do, and iff the clock of the read is, in
every component, at least every clock recorded for the client and key. What the trackers accept
does not depend on the order of recording. -/
theorem session_guarantees_compose (as : List (Access γ I K V)) (clientID : γ)
    (proposed : KVEntry I K V) :
    ((run Trackers.step Trackers.new as).causal.validateRead clientID proposed = .ok () ↔
        (run Trackers.step Trackers.new as).readYourWrites.validateRead clientID proposed =
            .ok () ∧
          (run Trackers.step Trackers.new as).monotonicReads.validateRead clientID proposed =
            .ok ()) ∧
      ((run Trackers.step Trackers.new as).causal.validateRead clientID proposed = .ok () ↔
        ∀ a ∈ as, a.clientID = clientID → a.entry.key = proposed.key →
          ∀ i, a.entry.vclock.count i ≤ proposed.vclock.count i) ∧
      ∀ as', as'.Perm as →
        ((run Trackers.step Trackers.new as').causal.validateRead clientID proposed = .ok () ↔
          (run Trackers.step Trackers.new as).causal.validateRead clientID proposed = .ok ()) ∧
        ((run Trackers.step Trackers.new as').readYourWrites.validateRead clientID proposed =
            .ok () ↔
          (run Trackers.step Trackers.new as).readYourWrites.validateRead clientID proposed =
            .ok ()) ∧
        ((run Trackers.step Trackers.new as').monotonicReads.validateRead clientID proposed =
            .ok () ↔
          (run Trackers.step Trackers.new as).monotonicReads.validateRead clientID proposed =
            .ok ()) := by
  refine ⟨?_, causal_ok_iff as, fun as' hperm => ?_⟩
  · rw [causal_ok_iff, readYourWrites_ok_iff, monotonicReads_ok_iff]
    constructor
    · intro h
      exact ⟨fun a ha _ => h a ha, fun a ha _ => h a ha⟩
    · rintro ⟨hwrites, hreads⟩ a ha
      cases hw : a.isWrite with
      | true => exact hwrites a ha hw
      | false => exact hreads a ha hw
  · rw [causal_ok_iff, causal_ok_iff, readYourWrites_ok_iff, readYourWrites_ok_iff,
      monotonicReads_ok_iff, monotonicReads_ok_iff]
    simp only [hperm.mem_iff, and_self]

end histories

/-- Client `1` writes key `7` at one node and reads it from another one; client `2` reads it. -/
private def accesses : List (Access ℕ Bool ℕ ℕ) :=
  [⟨1, ⟨7, 0, .single false 2, 0, false, false, 1⟩, true⟩,
    ⟨2, ⟨7, 0, .single true 9, 0, false, false, 1⟩, false⟩,
    ⟨1, ⟨7, 0, .single true 3, 0, false, false, 1⟩, false⟩]

/-- Client `1` may read what holds both of its accesses. -/
theorem session_guarantees_accesses :
    (run Trackers.step Trackers.new accesses).causal.validateRead 1
        (⟨7, 0, (VectorClock.single false 2).merge (.single true 3), 0, false, false, 1⟩ :
          KVEntry Bool ℕ ℕ) = .ok () ∧
      ¬ ((run Trackers.step Trackers.new accesses).readYourWrites.validateRead 1
            (⟨7, 0, .single true 3, 0, false, false, 1⟩ : KVEntry Bool ℕ ℕ) = .ok () ∧
          (run Trackers.step Trackers.new accesses).monotonicReads.validateRead 1
            (⟨7, 0, .single true 3, 0, false, false, 1⟩ : KVEntry Bool ℕ ℕ) = .ok ()) := by
  refine ⟨(session_guarantees_compose accesses 1 _).2.1.mpr ?_, ?_⟩
  · decide
  · rw [← (session_guarantees_compose accesses 1 _).1,
      (session_guarantees_compose accesses 1 _).2.1]
    decide

/-! ### Consistent prefixes -/

/-- "consistent prefix violation: key %s frontier %s, proposed %s is causally earlier". -/
structure PrefixViolation (I K : Type) where
  key : K
  frontier : VectorClock I
  proposed : VectorClock I

/-- One frontier for all clients. Source: `consistent_prefix.go` `ConsistentPrefix`. -/
structure ConsistentPrefix (I K : Type) where
  sequence : K → Option (VectorClock I)

namespace ConsistentPrefix

variable (c : ConsistentPrefix I K)

/-- Source: `consistent_prefix.go` `NewConsistentPrefix`. -/
def new : ConsistentPrefix I K := ⟨fun _ => none⟩

/-- Source: `consistent_prefix.go` `ValidateRead`. -/
def validateRead (_clientID : γ) (proposed : KVEntry I K V) : Except (PrefixViolation I K) Unit :=
  match c.sequence proposed.key with
  | none => .ok ()
  | some last =>
    if proposed.vclock.dominates last then .ok ()
    else .error ⟨proposed.key, last, proposed.vclock⟩

/-- What `RecordRead` and `RecordWrite` do. Source: `consistent_prefix.go` `advance`. -/
def advance (entry : KVEntry I K V) : ConsistentPrefix I K :=
  ⟨Function.update c.sequence entry.key
    (some (((c.sequence entry.key).getD .empty).merge entry.vclock))⟩

/-- The frontier as what is required of a single client. -/
def requirements : Requirements Unit I K := fun _ => some c.sequence

lemma validateRead_eq_ok_iff {clientID : γ} {proposed : KVEntry I K V} :
    c.validateRead clientID proposed = .ok () ↔
      c.requirements.Accepts () proposed.key proposed.vclock := by
  unfold validateRead Requirements.Accepts Requirements.required requirements
  rw [Option.bind_some]
  cases c.sequence proposed.key with
  | none => simp
  | some => simp [VectorClock.dominates_iff]

lemma requirements_advance (entry : KVEntry I K V) :
    (c.advance entry).requirements = c.requirements.record () entry := by
  funext u
  unfold Requirements.record
  rw [update_self]
  rfl

lemma requirements_run (as : List (Access γ I K V)) :
    (run (fun c a => c.advance a.entry) c as).requirements =
      recordAll c.requirements (as.map fun a => ⟨(), a.entry, a.isWrite⟩) := by
  induction as generalizing c with
  | nil => rfl
  | cons a as ih =>
    rw [run_cons, ih, requirements_advance]
    rfl

end ConsistentPrefix

/-- **A consistent prefix is causal consistency for everybody**: after any history, the tracker of
the prefix accepts a read, whoever makes it, iff the causal tracker accepts it for every client. -/
theorem consistentPrefix_iff_causal (as : List (Access γ I K V)) (clientID : γ)
    (proposed : KVEntry I K V) :
    (run (fun c a => c.advance a.entry) ConsistentPrefix.new as).validateRead clientID proposed =
        .ok () ↔
      ∀ client, (run Trackers.step Trackers.new as).causal.validateRead client proposed =
        .ok () := by
  have hnone : (ConsistentPrefix.new : ConsistentPrefix I K).requirements.Accepts () proposed.key
      proposed.vclock := fun _ hr => absurd hr (Option.not_mem_none _)
  rw [ConsistentPrefix.validateRead_eq_ok_iff, ConsistentPrefix.requirements_run,
    accepts_recordAll, and_iff_right hnone]
  simp only [causal_ok_iff, List.forall_mem_map]
  constructor
  · exact fun h client a ha _ => h a ha rfl
  · exact fun h a ha _ => h a.clientID a ha rfl

end Replication.Consistency
