import Mathlib.Data.List.Basic
import Mathlib.Data.Option.Basic
import Mathlib.Tactic.SplitIfs

/-!
# Simulation · History: the event history of a cluster

`internal/simulation/history.go`. A bounded buffer of the newest frames; every fiftieth frame, and
the frame of every structural event, carries a snapshot of the cluster state. A reader who asks for
the state at a sequence number gets the newest snapshot up to it and the events from there on.

* `ClusterEventHistory.append`, `ClusterEventHistory.stateAt` — the calls.
-/

namespace Replication.Simulation

open List

variable {δ σ : Type} {i k : ℕ}

/-- Source: `events/bus.go` `EventType`. -/
inductive EventType where
  | followerLag
  | conflictDetected
  | conflictResolved
  | entryReplicated
  | nodeStateChanged
  | partitionCreated
  | partitionHealed
  | readRepair
  | leaderElected
  | hintedHandoff
  | quorumAchieved
  | quorumFailed
  | writeReceived
  | readReceived
  | scenarioStep
  | scenarioVerdict
  deriving DecidableEq, Repr

/-- An event; its other fields are carried along. Source: `events/bus.go` `Event`. -/
structure Event (δ : Type) where
  type : EventType
  data : δ
  deriving DecidableEq, Repr

/-- Source: `history.go` `isStructuralEvent`. -/
def isStructuralEvent : EventType → Bool
  | .partitionCreated | .partitionHealed | .nodeStateChanged | .leaderElected => true
  | _ => false

/-- Source: `history.go` `historyMaxSize`. -/
def historyMaxSize : ℕ := 1000

/-- Source: `history.go` `snapshotInterval`. -/
def snapshotInterval : ℕ := 50

/-- A frame. Source: `history.go` `HistoryEntry`. -/
structure HistoryEntry (δ σ : Type) where
  seq : ℕ
  event : Event δ
  /-- The snapshot, if the frame carries one. -/
  state : Option σ
  deriving DecidableEq, Repr

variable {e : HistoryEntry δ σ} {evs : List (Event δ × σ)}

/-- Source: `history.go` `ClusterEventHistory`. -/
structure ClusterEventHistory (δ σ : Type) where
  entries : List (HistoryEntry δ σ)
  maxSize : ℕ
  seq : ℕ
  deriving DecidableEq, Repr

/-- What `StateAt` returns. Source: `history.go` `HistoryStateResult`. -/
structure HistoryStateResult (δ σ : Type) where
  /-- The sequence number of the snapshot, `0` if there is none. -/
  baseSeq : ℕ
  baseState : Option σ
  /-- The frames after it, up to the target. -/
  tail : List (HistoryEntry δ σ)
  maxSeq : ℕ
  deriving DecidableEq, Repr

/-- The frame of an event; `getSnapshot` is the state that the callback would return. Source:
`history.go` `Append`. -/
def frame (seq : ℕ) (evt : Event δ) (getSnapshot : σ) : HistoryEntry δ σ where
  seq := seq
  event := evt
  state :=
    if isStructuralEvent evt.type ∨ seq % snapshotInterval = 0 then some getSnapshot else none

namespace ClusterEventHistory

/-- An empty history. The code makes them of size `historyMaxSize`. Source: `history.go`
`newClusterEventHistory`. -/
def new (maxSize : ℕ) : ClusterEventHistory δ σ := ⟨[], maxSize, 0⟩

variable (h : ClusterEventHistory δ σ)

/-- Make room for a frame. Slicing off the first frame of an empty buffer, which panics, is
`none`. Source: `history.go` `Append`. -/
def evict : Option (List (HistoryEntry δ σ)) :=
  if h.maxSize ≤ h.entries.length then
    match h.entries with
    | [] => none
    | _ :: entries => some entries
  else some h.entries

/-- Record an event. Source: `history.go` `Append`. -/
def append (evt : Event δ) (getSnapshot : σ) : Option (ClusterEventHistory δ σ) :=
  h.evict.map fun entries =>
    { h with entries := entries ++ [frame (h.seq + 1) evt getSnapshot], seq := h.seq + 1 }

/-- Append events one after the other. -/
def appendAll : ClusterEventHistory δ σ → List (Event δ × σ) → Option (ClusterEventHistory δ σ)
  | h, [] => some h
  | h, p :: evs => (h.append p.1 p.2).bind fun h' => h'.appendAll evs

/-- The loop of `StateAt` for the base: the last frame with a snapshot up to the target. Source:
`history.go` `StateAt`. -/
def base (targetSeq : ℕ) : ℕ × Option σ :=
  h.entries.foldl (fun b e => if e.state.isSome ∧ e.seq ≤ targetSeq then (e.seq, e.state) else b)
    (0, none)

/-- The base for a target and the frames from there on. Source: `history.go` `StateAt`. -/
def stateAt (targetSeq : ℕ) : HistoryStateResult δ σ where
  baseSeq := (h.base targetSeq).1
  baseState := (h.base targetSeq).2
  tail := h.entries.filter fun e => (h.base targetSeq).1 < e.seq ∧ e.seq ≤ targetSeq
  maxSeq := h.seq

/-- The first frame of all, or a frame with a snapshot up to the target, is held. -/
def covered (targetSeq : ℕ) : Bool :=
  h.entries.any fun e => e.seq = 1 ∨ e.state.isSome ∧ e.seq ≤ targetSeq

end ClusterEventHistory

/-! ### All frames -/

/-- The frames of a sequence of events, as if none were dropped. -/
def frames (evs : List (Event δ × σ)) : List (HistoryEntry δ σ) :=
  evs.mapIdx fun i p => frame (i + 1) p.1 p.2

/-- An answer suffices to rebuild the state at the target: a snapshot that was taken up to it and
all events from there on, or no snapshot and all events from the beginning. -/
def Rebuilds (evs : List (Event δ × σ)) (target : ℕ) (r : HistoryStateResult δ σ) : Prop :=
  (∃ e ∈ frames evs, ∃ s, e.state = some s ∧ r.baseState = some s ∧ r.baseSeq = e.seq ∧
      e.seq ≤ target ∧ r.tail = ((frames evs).take target).drop e.seq) ∨
    (r.baseState = none ∧ r.tail = (frames evs).take target)

@[simp] lemma length_frames (evs : List (Event δ × σ)) : (frames evs).length = evs.length :=
  length_mapIdx

lemma frames_concat (evs : List (Event δ × σ)) (p : Event δ × σ) :
    frames (evs ++ [p]) = frames evs ++ [frame (evs.length + 1) p.1 p.2] :=
  mapIdx_concat

lemma exists_of_getElem?_frames (h : (frames evs)[i]? = some e) :
    ∃ p, evs[i]? = some p ∧ e = frame (i + 1) p.1 p.2 := by
  unfold frames at h
  rw [getElem?_mapIdx, Option.map_eq_some_iff] at h
  obtain ⟨p, hp, rfl⟩ := h
  exact ⟨p, hp, rfl⟩

lemma seq_of_getElem?_frames (h : (frames evs)[i]? = some e) : e.seq = i + 1 := by
  obtain ⟨p, -, rfl⟩ := exists_of_getElem?_frames h
  rfl

lemma seq_of_getElem?_drop_frames (h : ((frames evs).drop k)[i]? = some e) : e.seq = k + i + 1 := by
  rw [getElem?_drop] at h
  exact seq_of_getElem?_frames h

lemma lt_seq_of_mem_drop (h : e ∈ (frames evs).drop k) : k < e.seq := by
  obtain ⟨i, hi⟩ := mem_iff_getElem?.mp h
  have := seq_of_getElem?_drop_frames hi
  omega

/-! ### The buffer -/

/-- A buffer holds the newest frames of a sequence of events. -/
structure Holds (maxSize : ℕ) (evs : List (Event δ × σ)) (h : ClusterEventHistory δ σ) : Prop where
  maxSize_eq : h.maxSize = maxSize
  seq_eq : h.seq = evs.length
  entries_eq : h.entries = (frames evs).drop (evs.length - maxSize)

section buffer

variable {h h' : ClusterEventHistory δ σ} {maxSize : ℕ} {evs : List (Event δ × σ)}

lemma holds_new (maxSize : ℕ) : Holds maxSize [] (.new maxSize : ClusterEventHistory δ σ) :=
  ⟨rfl, rfl, drop_nil.symm⟩

lemma exists_evict (hpos : 0 < h.maxSize) : ∃ entries, h.evict = some entries := by
  unfold ClusterEventHistory.evict
  split_ifs with hfull
  · cases hentries : h.entries with
    | nil =>
      rw [hentries, length_nil] at hfull
      omega
    | cons e es => exact ⟨es, rfl⟩
  · exact ⟨h.entries, rfl⟩

lemma exists_append (hpos : 0 < h.maxSize) (evt : Event δ) (getSnapshot : σ) :
    ∃ h', h.append evt getSnapshot = some h' ∧ h'.maxSize = h.maxSize ∧ h'.seq = h.seq + 1 := by
  obtain ⟨entries, hentries⟩ := exists_evict hpos
  rw [ClusterEventHistory.append, hentries]
  exact ⟨_, rfl, rfl, rfl⟩

lemma exists_appendAll (hpos : 0 < h.maxSize) (evs : List (Event δ × σ)) :
    ∃ h', h.appendAll evs = some h' ∧ h'.maxSize = h.maxSize ∧ h'.seq = h.seq + evs.length := by
  induction evs generalizing h with
  | nil => exact ⟨h, rfl, rfl, rfl⟩
  | cons p evs ih =>
    obtain ⟨h₁, happ, hsize₁, hseq₁⟩ := exists_append hpos p.1 p.2
    obtain ⟨h', hrun, hsize, hseq⟩ := ih (hsize₁ ▸ hpos)
    refine ⟨h', Option.bind_eq_some_iff.mpr ⟨h₁, happ, hrun⟩, hsize.trans hsize₁, ?_⟩
    rw [hseq, hseq₁, length_cons]
    omega

/-- Eviction leaves room for one entry. -/
lemma evict_eq (hle : h.entries.length ≤ h.maxSize) :
    h.evict = if h.maxSize = 0 then none
      else some (h.entries.drop (h.entries.length + 1 - h.maxSize)) := by
  unfold ClusterEventHistory.evict
  by_cases hfull : h.maxSize ≤ h.entries.length
  · rw [if_pos hfull, show h.entries.length + 1 - h.maxSize = 1 by omega, drop_one]
    cases hentries : h.entries with
    | nil =>
      rw [hentries, length_nil] at hfull
      rw [if_pos (Nat.le_zero.mp hfull)]
    | cons =>
      rw [hentries, length_cons] at hle hfull
      rw [if_neg (by omega), tail_cons]
  · rw [if_neg hfull, if_neg (by omega), show h.entries.length + 1 - h.maxSize = 0 by omega,
      drop_zero]

namespace Holds

section

variable (hh : Holds maxSize evs h)

include hh

lemma length_entries : h.entries.length = evs.length - (evs.length - maxSize) := by
  rw [hh.entries_eq, length_drop, length_frames]

/-- **An event more**: a buffer of positive size holds the newest frames again, and one of size `0`
fails. -/
theorem append_eq (p : Event δ × σ) :
    if maxSize = 0 then h.append p.1 p.2 = none
    else ∃ h', h.append p.1 p.2 = some h' ∧ Holds maxSize (evs ++ [p]) h' := by
  have hlen := hh.length_entries
  have hsize := hh.maxSize_eq
  unfold ClusterEventHistory.append
  rw [evict_eq (by omega), hsize]
  split_ifs with hzero
  · rfl
  refine ⟨_, rfl, rfl, ?_, ?_⟩
  · show h.seq + 1 = _
    rw [hh.seq_eq, length_append, length_singleton]
  · show h.entries.drop _ ++ [frame (h.seq + 1) p.1 p.2] = _
    rw [frames_concat, length_append, length_singleton, hh.seq_eq,
      drop_append_of_le_length (by rw [length_frames]; omega), hlen, hh.entries_eq,
      drop_drop]
    congr 2
    omega

lemma append {p : Event δ × σ} (happ : h.append p.1 p.2 = some h') :
    Holds maxSize (evs ++ [p]) h' := by
  have hstep := hh.append_eq p
  split_ifs at hstep
  · simp [happ] at hstep
  · obtain ⟨h'', happ', hh'⟩ := hstep
    obtain rfl := Option.some.inj (happ.symm.trans happ')
    exact hh'

/-- Appending events keeps the window. -/
lemma appendAll {evs' : List (Event δ × σ)} (hrun : h.appendAll evs' = some h') :
    Holds maxSize (evs ++ evs') h' := by
  induction evs' generalizing h evs with
  | nil =>
    rw [append_nil]
    exact Option.some.inj hrun ▸ hh
  | cons p evs' ih =>
    obtain ⟨h'', happ, hrun'⟩ := Option.bind_eq_some_iff.mp hrun
    rw [← singleton_append, ← append_assoc]
    exact ih (hh.append happ) hrun'

end

end Holds

end buffer

/-! ### The answer -/

/-- In a list that is numbered from `k + 1` on, what is numbered between two bounds is a part of the
list. -/
lemma filter_of_numbered {l : List (HistoryEntry δ σ)}
    (hl : ∀ i e, l[i]? = some e → e.seq = k + i + 1) (b t : ℕ) :
    (l.filter fun e => b < e.seq ∧ e.seq ≤ t) = (l.take (t - k)).drop (b - k) := by
  induction l generalizing k with
  | nil => simp
  | cons e l ih =>
    have he : e.seq = k + 1 := hl 0 e rfl
    have hrest := ih (k := k + 1) fun i e' hi => by
      have := hl (i + 1) e' hi
      omega
    rw [filter_cons, hrest]
    rcases Nat.lt_or_ge k t with ht | ht
    · rw [show t - k = t - (k + 1) + 1 by omega, take_succ_cons]
      rcases Nat.lt_or_ge k b with hb | hb
      · rw [if_neg (by simp only [decide_eq_true_eq]; omega),
          show b - k = b - (k + 1) + 1 by omega, drop_succ_cons]
      · rw [if_pos (by simp only [decide_eq_true_eq]; omega),
          show b - k = 0 by omega, show b - (k + 1) = 0 by omega, drop_zero, drop_zero]
    · rw [if_neg (by simp only [decide_eq_true_eq]; omega), show t - k = 0 by omega,
        show t - (k + 1) = 0 by omega, take_zero, take_zero, drop_nil,
        drop_nil]

lemma foldl_ite_cases {α γ : Type} (p : α → Prop) [DecidablePred p] (f : α → γ) (b : γ)
    (l : List α) :
    (∀ a ∈ l, ¬ p a) ∧ l.foldl (fun b a => if p a then f a else b) b = b ∨
      ∃ a ∈ l, p a ∧ l.foldl (fun b a => if p a then f a else b) b = f a := by
  induction l generalizing b with
  | nil => exact .inl ⟨nofun, rfl⟩
  | cons a l ih =>
    rw [foldl_cons]
    rcases ih (if p a then f a else b) with ⟨hnone, heq⟩ | ⟨a', ha', hp, heq⟩
    · by_cases hpa : p a
      · rw [if_pos hpa] at heq ⊢
        exact .inr ⟨a, mem_cons_self, hpa, heq⟩
      · rw [if_neg hpa] at heq ⊢
        refine .inl ⟨fun a' ha' => ?_, heq⟩
        rcases mem_cons.mp ha' with rfl | ha'
        · exact hpa
        · exact hnone a' ha'
    · exact .inr ⟨a', mem_cons_of_mem _ ha', hp, heq⟩

section answer

variable {h : ClusterEventHistory δ σ} {maxSize : ℕ} {evs : List (Event δ × σ)} {k target : ℕ}

/-- The tail of an answer, as frames of the whole history. -/
lemma tail_stateAt (hentries : h.entries = (frames evs).drop k) :
    (h.stateAt target).tail = ((frames evs).take target).drop (k + ((h.base target).1 - k)) := by
  show (h.entries.filter fun e => (h.base target).1 < e.seq ∧ e.seq ≤ target) = _
  rw [filter_of_numbered (k := k), hentries, ← drop_take, drop_drop]
  intro i e he
  rw [hentries] at he
  exact seq_of_getElem?_drop_frames he

/-- **When an answer suffices**, for a target that is held: iff the first frame of all is held, or
one with a snapshot up to the target. -/
theorem rebuilds_iff_covered (hentries : h.entries = (frames evs).drop k) (hk : k < target)
    (htarget : target ≤ evs.length) :
    Rebuilds evs target (h.stateAt target) ↔ h.covered target = true := by
  have htail : (h.stateAt target).tail = _ := tail_stateAt hentries
  have hmem : ∀ e ∈ h.entries, e ∈ frames evs ∧ k < e.seq := by
    intro e he
    rw [hentries] at he
    exact ⟨mem_of_mem_drop he, lt_seq_of_mem_drop he⟩
  unfold ClusterEventHistory.covered
  rw [any_eq_true]
  simp only [decide_eq_true_eq]
  rcases foldl_ite_cases (fun e : HistoryEntry δ σ => e.state.isSome ∧ e.seq ≤ target)
    (fun e => (e.seq, e.state)) (0, none) h.entries with ⟨hnone, hbase⟩ | ⟨e, he, ⟨hs, hle⟩, hbase⟩
  · -- no snapshot: the tail is all that is held up to the target
    have hseq : (h.base target).1 = 0 := congrArg Prod.fst hbase
    have hstate : (h.stateAt target).baseState = none := congrArg Prod.snd hbase
    rw [hseq, Nat.zero_sub, Nat.add_zero] at htail
    constructor
    · rintro (⟨e, -, s, -, hs, -⟩ | ⟨-, hall⟩)
      · simp [hstate] at hs
      · have hlen := congrArg List.length (htail.symm.trans hall)
        rw [length_drop, length_take, length_frames] at hlen
        obtain rfl : k = 0 := by omega
        rw [drop_zero] at hentries
        have hpos : 0 < (frames evs).length := by
          rw [length_frames]
          omega
        refine ⟨(frames evs)[0], ?_, .inl ?_⟩
        · rw [hentries]
          exact getElem_mem hpos
        · exact seq_of_getElem?_frames (getElem?_eq_getElem hpos)
    · rintro ⟨e, he, hone | hsnap⟩
      · obtain rfl : k = 0 := by
          have := (hmem e he).2
          omega
        exact .inr ⟨hstate, htail⟩
      · exact absurd hsnap (hnone e he)
  · -- a snapshot: the tail starts after it
    have hseq : (h.base target).1 = e.seq := congrArg Prod.fst hbase
    have hstate : (h.stateAt target).baseState = e.state := congrArg Prod.snd hbase
    obtain ⟨hframe, hlt⟩ := hmem e he
    obtain ⟨s, hes⟩ := Option.isSome_iff_exists.mp hs
    refine iff_of_true (.inl ⟨e, hframe, s, hes, hstate.trans hes, hseq, hle, ?_⟩)
      ⟨e, he, .inr ⟨hs, hle⟩⟩
    rw [htail, hseq, show k + (e.seq - k) = e.seq by omega]

/-- **Replay bases.** Whatever the size of the buffer and the events: for a target from the oldest
frame that is held to the newest, the answer suffices to rebuild the state iff the first frame of
all, or a frame with a snapshot up to the target, is still held. -/
theorem stateAt_rebuilds_iff {oldest : HistoryEntry δ σ}
    (hrun : (ClusterEventHistory.new maxSize).appendAll evs = some h)
    (holdest : h.entries.head? = some oldest) (hlow : oldest.seq ≤ target)
    (hhigh : target ≤ h.seq) :
    Rebuilds evs target (h.stateAt target) ↔ h.covered target = true := by
  have hh : Holds maxSize evs h := (holds_new maxSize).appendAll hrun
  have hmem : oldest ∈ h.entries := mem_of_head? holdest
  rw [hh.entries_eq] at hmem
  have hlt := lt_seq_of_mem_drop hmem
  rw [hh.seq_eq] at hhigh
  exact rebuilds_iff_covered hh.entries_eq (Nat.lt_of_lt_of_le hlt hlow) hhigh

/-- A buffer of three frames, of which the middle one carries a snapshot. -/
private def elected : ClusterEventHistory Unit ℕ where
  entries := [frame 2 ⟨.writeReceived, ()⟩ 12, frame 3 ⟨.leaderElected, ()⟩ 13,
    frame 4 ⟨.readReceived, ()⟩ 14]
  maxSize := 3
  seq := 4

/-- Four events in a history of three. -/
theorem stateAt_rebuilds_elected :
    (ClusterEventHistory.new 3).appendAll [(⟨.readRepair, ()⟩, 11), (⟨.writeReceived, ()⟩, 12),
        (⟨.leaderElected, ()⟩, 13), (⟨.readReceived, ()⟩, 14)] = some elected ∧
      elected.stateAt 4 = ⟨3, some 13, [frame 4 ⟨.readReceived, ()⟩ 14], 4⟩ ∧
      Rebuilds [(⟨.readRepair, ()⟩, 11), (⟨.writeReceived, ()⟩, 12),
        (⟨.leaderElected, ()⟩, 13), (⟨.readReceived, ()⟩, 14)] 4 (elected.stateAt 4) := by
  refine ⟨by decide, by decide, ?_⟩
  have hrun : (ClusterEventHistory.new 3).appendAll [(⟨.readRepair, ()⟩, 11),
      (⟨.writeReceived, ()⟩, 12), (⟨.leaderElected, ()⟩, 13), (⟨.readReceived, ()⟩, 14)] =
      some elected := by decide
  exact (stateAt_rebuilds_iff hrun rfl (by decide) (by decide)).mpr (by decide)

end answer

/-- A thousand writes and one, and nothing else. -/
def plainWrites : List (Event Unit × Unit) := List.replicate 1001 (⟨.writeReceived, ()⟩, ())

lemma not_covered_plainWrites {h : ClusterEventHistory Unit Unit}
    (hentries : h.entries = (frames plainWrites).drop 1) : h.covered 10 = false := by
  unfold ClusterEventHistory.covered
  rw [any_eq_false]
  intro e he
  rw [hentries] at he
  have hlt := lt_seq_of_mem_drop he
  obtain ⟨i, hi⟩ := mem_iff_getElem?.mp (mem_of_mem_drop he)
  have hseq := seq_of_getElem?_frames hi
  obtain ⟨p, hp, hframe⟩ := exists_of_getElem?_frames hi
  have hwrite : p = (⟨.writeReceived, ()⟩, ()) := eq_of_mem_replicate (mem_of_getElem? hp)
  -- a plain event between the second and the tenth carries no snapshot
  have hstate : e.seq ≤ 10 → e.state = none := by
    intro hle
    rw [hframe, hwrite]
    refine if_neg ?_
    rintro (hstruct | hmod)
    · cases hstruct
    · unfold snapshotInterval at hmod
      omega
  simp only [decide_eq_true_eq, not_or, not_and]
  refine ⟨by omega, fun hsome hle => ?_⟩
  simp [hstate hle] at hsome

/-- In a buffer of the size that the code uses, the first of the writes has been dropped and the
first snapshot comes after the target: the answer has no base, and starts with the second write. -/
theorem stateAt_plainWrites : ∃ h : ClusterEventHistory Unit Unit,
    (ClusterEventHistory.new historyMaxSize).appendAll plainWrites = some h ∧
      (∃ e, h.entries.head? = some e ∧ e.seq = 2) ∧ 10 ≤ h.seq ∧
      ¬ Rebuilds plainWrites 10 (h.stateAt 10) := by
  have hnew : Holds historyMaxSize [] (.new historyMaxSize : ClusterEventHistory Unit Unit) :=
    holds_new _
  obtain ⟨h, hrun, -⟩ := exists_appendAll (h := .new historyMaxSize) (by decide) plainWrites
  have hh : Holds historyMaxSize plainWrites h := hnew.appendAll hrun
  have hlen : plainWrites.length = 1001 := length_replicate
  have hentries : h.entries = (frames plainWrites).drop 1 := by
    rw [hh.entries_eq, hlen]
    rfl
  refine ⟨h, hrun, ?_, by rw [hh.seq_eq, hlen]; decide, ?_⟩
  · have hlt : 1 < (frames plainWrites).length := by
      rw [length_frames, hlen]
      decide
    refine ⟨(frames plainWrites)[1], ?_, seq_of_getElem?_frames (getElem?_eq_getElem hlt)⟩
    rw [hentries, head?_drop, getElem?_eq_getElem hlt]
  · rw [rebuilds_iff_covered hentries (by decide) (by rw [hlen]; decide),
      not_covered_plainWrites hentries]
    exact Bool.false_ne_true

end Replication.Simulation
