import Mathlib.Data.List.Induction
import Mathlib.Data.Int.Notation
import Replication.Library.Run

/-!
# Durability · Wal: a write-ahead log and its crashes

`internal/durability/wal.go`. Every `Append` acknowledges its record; the mode says when it reaches
the durable segment. A crash discards the buffer.

* `WAL.append`, `flush`, `crash` — the calls.
-/

namespace Replication.Durability

open Library List

variable {α : Type}

/-- When a record becomes durable. Every other number is as `buffered`. Source: `wal.go` `Mode`. -/
inductive Mode where
  | buffered
  | fsync
  /-- By a flush, or when a group is full. -/
  | groupCommit
  deriving DecidableEq, Repr

/-- A log with a durable segment and a buffer. Source: `wal.go` `WAL`. -/
structure WAL (α : Type) where
  mode : Mode
  /-- The number of records that are flushed together. -/
  groupSize : ℕ
  groupSize_pos : 0 < groupSize
  /-- The records that survive a crash. -/
  durable : List α
  buffer : List α
  /-- The number of records acknowledged. -/
  acked : ℕ
  lost : ℕ

variable {w : WAL α}

/-- The calls of a log, and the crash. -/
inductive Call (α : Type) where
  | append (record : α)
  | flush
  | crash
  deriving DecidableEq, Repr

namespace WAL

/-- A group size below one is taken as one. Source: `wal.go` `New`. -/
def new (mode : Mode) (groupSize : ℤ) : WAL α where
  mode := mode
  groupSize := if groupSize < 1 then 1 else groupSize.toNat
  groupSize_pos := by split_ifs <;> omega
  durable := []
  buffer := []
  acked := 0
  lost := 0

/-- Make the buffer durable, and return the number of its records. Source: `wal.go` `Flush`,
`flushLocked`. -/
def flush (w : WAL α) : WAL α × ℕ :=
  if w.buffer.length = 0 then (w, 0)
  else ({ w with durable := w.durable ++ w.buffer, buffer := [] }, w.buffer.length)

/-- Acknowledge a record, and return whether it is durable. Source: `wal.go` `Append`. -/
def append (w : WAL α) (record : α) : WAL α × Bool :=
  let w := { w with acked := w.acked + 1 }
  match w.mode with
  | .fsync => ({ w with durable := w.durable ++ [record] }, true)
  | .groupCommit =>
    let w := { w with buffer := w.buffer ++ [record] }
    if w.groupSize ≤ w.buffer.length then (w.flush.1, true) else (w, false)
  | .buffered => ({ w with buffer := w.buffer ++ [record] }, false)

/-- Discard the buffer. Source: `wal.go` `Crash`. -/
def crash (w : WAL α) : WAL α := { w with lost := w.lost + w.buffer.length, buffer := [] }

/-- The log after a call. -/
def step (w : WAL α) : Call α → WAL α
  | .append record => (w.append record).1
  | .flush => w.flush.1
  | .crash => w.crash

/-- The durable records and then the buffered ones. -/
def held (w : WAL α) : List α := w.durable ++ w.buffer

/-! ### What a call does -/

lemma flush_eq (w : WAL α) : w.flush.1 = { w with durable := w.held, buffer := [] } := by
  obtain ⟨mode, groupSize, pos, durable, buffer, acked, lost⟩ := w
  dsimp only [flush, held]
  split_ifs with h
  · rw [eq_nil_of_length_eq_zero h, append_nil]
  · rfl

/-- The records are accounted for, and the buffer is as the mode allows. -/
structure Sound (w : WAL α) : Prop where
  /-- An acknowledged record is durable, buffered or lost. -/
  acked : w.acked = w.durable.length + w.buffer.length + w.lost
  fsync : w.mode = .fsync → w.buffer = []
  groupCommit : w.mode = .groupCommit → w.buffer.length < w.groupSize

/-- **An append** makes everything durable, with the record, or buffers the record. -/
theorem append_cases (h : w.Sound) (record : α) :
    w.append record =
        ({ w with acked := w.acked + 1, durable := w.held ++ [record], buffer := [] }, true) ∨
      w.append record =
          ({ w with acked := w.acked + 1, buffer := w.buffer ++ [record] }, false) ∧
        w.mode ≠ .fsync ∧ (w.mode = .groupCommit → w.buffer.length + 1 < w.groupSize) := by
  obtain ⟨mode, groupSize, pos, durable, buffer, acked, lost⟩ := w
  unfold append held
  cases mode with
  | fsync =>
    left
    have hempty : buffer = [] := h.fsync rfl
    rw [hempty]
    dsimp only
    rw [append_nil]
  | groupCommit =>
    dsimp only
    rw [flush_eq, length_append, length_singleton]
    split_ifs with hfull
    · left
      unfold held
      rw [append_assoc]
    · exact .inr ⟨rfl, (fun hne => nomatch hne), fun _ => Nat.lt_of_not_le hfull⟩
  | buffered => exact .inr ⟨rfl, (fun hne => nomatch hne), (fun hne => nomatch hne)⟩

/-- What a call does. -/
inductive Effect (w : WAL α) : Call α → WAL α → Prop
  | save (record : α) : Effect w (.append record)
      { w with acked := w.acked + 1, durable := w.held ++ [record], buffer := [] }
  | buffer (record : α) (hfsync : w.mode ≠ .fsync)
      (hgroup : w.mode = .groupCommit → w.buffer.length + 1 < w.groupSize) :
      Effect w (.append record) { w with acked := w.acked + 1, buffer := w.buffer ++ [record] }
  | flush : Effect w .flush { w with durable := w.held, buffer := [] }
  | crash : Effect w .crash w.crash

lemma sound_new (mode : Mode) (groupSize : ℤ) : (new mode groupSize : WAL α).Sound :=
  ⟨rfl, fun _ => rfl, fun _ => (new mode groupSize : WAL α).groupSize_pos⟩

section

variable (h : w.Sound)

include h

/-- **What a call does.** -/
theorem effect_step (c : Call α) : Effect w c (w.step c) := by
  cases c with
  | append record =>
    show Effect w _ (w.append record).1
    rcases append_cases h record with heq | ⟨heq, hfsync, hgroup⟩
    · rw [heq]
      exact .save record
    · rw [heq]
      exact .buffer record hfsync hgroup
  | flush =>
    show Effect w _ w.flush.1
    rw [flush_eq]
    exact .flush
  | crash => exact .crash

omit h

variable {c : Call α} {w' : WAL α} (he : Effect w c w')

include he

/-- **A call keeps the accounts.** -/
theorem Effect.sound (h : w.Sound) : w'.Sound := by
  have hacked := h.acked
  cases he with
  | save | flush =>
    refine ⟨?_, fun _ => rfl, fun _ => w.groupSize_pos⟩
    simp only [held, length_append, length_singleton, length_nil]
    omega
  | buffer record hfsync hgroup =>
    refine ⟨?_, fun hmode => absurd hmode hfsync, fun hmode => ?_⟩
    · simp only [length_append, length_singleton]
      omega
    · rw [length_append, length_singleton]
      exact hgroup hmode
  | crash =>
    refine ⟨?_, fun _ => rfl, fun _ => w.groupSize_pos⟩
    show w.acked = w.durable.length + 0 + (w.lost + w.buffer.length)
    omega

lemma Effect.settings : w'.mode = w.mode ∧ w'.groupSize = w.groupSize := by
  cases he <;> exact ⟨rfl, rfl⟩

lemma Effect.durable : w.durable <+: w'.durable := by
  cases he with
  | save => exact (prefix_append _ _).trans (prefix_append _ _)
  | flush => exact prefix_append _ _
  | buffer | crash => exact prefix_refl _

lemma Effect.held (hc : c ≠ .crash) : w.held <+: w'.held := by
  cases he with
  | save => exact (prefix_append _ _).trans (prefix_append _ _)
  | buffer => exact ⟨_, append_assoc _ _ _⟩
  | flush => exact prefix_append _ _
  | crash => exact absurd rfl hc

end

end WAL

/-! ### Runs -/

/-- The records of the appends, in order. -/
def appended : List (Call α) → List α
  | [] => []
  | .append record :: calls => record :: appended calls
  | _ :: calls => appended calls

/-- A new log after some calls. -/
def logOf (mode : Mode) (groupSize : ℤ) (calls : List (Call α)) : WAL α :=
  run WAL.step (.new mode groupSize) calls

section run

variable {mode : Mode} {groupSize : ℤ} {w : WAL α} {calls pre : List (Call α)} {record : α}

lemma appended_append (calls calls' : List (Call α)) :
    appended (calls ++ calls') = appended calls ++ appended calls' := by
  induction calls with
  | nil => rfl
  | cons c calls ih =>
    cases c with
    | append record => exact congrArg (record :: ·) ih
    | flush | crash => exact ih

lemma logOf_append (calls calls' : List (Call α)) :
    logOf mode groupSize (calls ++ calls') = run WAL.step (logOf mode groupSize calls) calls' :=
  run_append ..

/-- What a log holds after some calls. -/
structure Tracks (mode : Mode) (groupSize : ℤ) (calls : List (Call α)) (w : WAL α) : Prop where
  sound : w.Sound
  mode_eq : w.mode = mode
  groupSize_eq : w.groupSize = (WAL.new mode groupSize : WAL α).groupSize
  acked : w.acked = (appended calls).length
  /-- What is held are appended records in the order of their appends. -/
  held : w.held.Sublist (appended calls)

/-- **One more call.** -/
theorem Tracks.step {c : Call α} {w' : WAL α} (h : Tracks mode groupSize calls w)
    (he : w.Effect c w') : Tracks mode groupSize (calls ++ [c]) w' := by
  obtain ⟨hmode, hsize⟩ := he.settings
  refine ⟨he.sound h.sound, hmode.trans h.mode_eq, hsize.trans h.groupSize_eq, ?_, ?_⟩
  · rw [appended_append, length_append, ← h.acked]
    cases he <;> rfl
  · rw [appended_append]
    cases he with
    | save | buffer | flush => simpa [WAL.held, appended, ← append_assoc] using h.held
    | crash =>
      show (w.durable ++ []).Sublist _
      rw [append_nil]
      exact ((sublist_append_left _ _).trans h.held).trans (sublist_append_left _ _)

/-- The log after some calls tracks them. -/
lemma tracks_logOf (mode : Mode) (groupSize : ℤ) (calls : List (Call α)) :
    Tracks mode groupSize calls (logOf mode groupSize calls) := by
  induction calls using List.reverseRecOn with
  | nil => exact ⟨WAL.sound_new mode groupSize, rfl, rfl, rfl, Sublist.refl _⟩
  | append_singleton calls c ih =>
    rw [logOf_append]
    exact ih.step (WAL.effect_step ih.sound c)

/-- What is durable stays durable. -/
lemma durable_run (h : w.Sound) (calls : List (Call α)) :
    w.durable <+: (run WAL.step w calls).durable := by
  induction calls generalizing w with
  | nil => exact prefix_refl _
  | cons c calls ih =>
    have he := WAL.effect_step h c
    exact he.durable.trans (ih (he.sound h))

/-- Without a crash what is held stays held. -/
lemma held_run (h : w.Sound) (hcrash : .crash ∉ calls) :
    w.held <+: (run WAL.step w calls).held := by
  induction calls generalizing w with
  | nil => exact prefix_refl _
  | cons c calls ih =>
    have he := WAL.effect_step h c
    have hc : c ≠ .crash := fun hc => hcrash (hc ▸ mem_cons_self)
    have hrest : .crash ∉ calls := fun hmem => hcrash (mem_cons_of_mem _ hmem)
    exact (he.held hc).trans (ih (he.sound h) hrest)

/-- **The durable segment only grows**, from every state to every later one. -/
theorem durable_logOf (hpre : pre <+: calls) :
    (logOf mode groupSize pre).durable <+: (logOf mode groupSize calls).durable := by
  obtain ⟨post, rfl⟩ := hpre
  rw [logOf_append]
  exact durable_run (tracks_logOf mode groupSize pre).sound post

/-- The place of the next record among those that are held. -/
def nextPlace (w : WAL α) : ℕ := w.durable.length + w.buffer.length

lemma held_append_place (h : w.Sound) (record : α) :
    (w.step (.append record)).held[nextPlace w]? = some record := by
  have hlen : nextPlace w = w.held.length := (length_append ..).symm
  have he := WAL.effect_step h (.append record)
  generalize w.step (.append record) = w' at he
  have hheld : w'.held = w.held ++ [record] := by
    cases he with
    | save => exact append_nil _
    | buffer => exact (append_assoc _ _ _).symm
  rw [hheld, hlen, getElem?_concat_length]

lemma getElem?_of_prefix {l l' : List α} (h : l <+: l') {i : ℕ} {a : α} (hi : l[i]? = some a) :
    l'[i]? = some a := by
  obtain ⟨t, rfl⟩ := h
  rw [getElem?_append_left (List.getElem?_eq_some_iff.mp hi).1, hi]

/-- **A record whose append returned true** is durable in every later state. -/
theorem durable_of_append_true (hpre : pre ++ [.append record] <+: calls)
    (htrue : ((logOf mode groupSize pre).append record).2 = true) :
    (logOf mode groupSize calls).durable[nextPlace (logOf mode groupSize pre)]? = some record := by
  have hsound := (tracks_logOf mode groupSize pre).sound
  refine getElem?_of_prefix (durable_logOf hpre) ?_
  have hplace := held_append_place hsound record
  rw [logOf_append]
  show ((logOf mode groupSize pre).append record).1.durable[_]? = _
  rcases WAL.append_cases hsound record with heq | ⟨heq, -⟩
  · have hstep : (logOf mode groupSize pre).step (.append record) = _ := congrArg Prod.fst heq
    rw [hstep, WAL.held, append_nil] at hplace
    rw [heq]
    exact hplace
  · simp [heq] at htrue

/-- **A record that is flushed** before a crash is durable in every later state. -/
theorem durable_of_flush {mid : List (Call α)}
    (hpre : pre ++ .append record :: mid ++ [.flush] <+: calls) (hcrash : .crash ∉ mid) :
    (logOf mode groupSize calls).durable[nextPlace (logOf mode groupSize pre)]? = some record := by
  have hsound := (tracks_logOf mode groupSize pre).sound
  have hplace := getElem?_of_prefix
    (held_run ((WAL.effect_step hsound (.append record)).sound hsound) hcrash)
    (held_append_place hsound record)
  refine getElem?_of_prefix (durable_logOf hpre) ?_
  rw [logOf_append, logOf_append]
  show (WAL.flush _).1.durable[_]? = _
  rw [WAL.flush_eq]
  exact hplace

end run

/-- **The accounts of a write-ahead log.** For every mode, group size and sequence of calls: the
records acknowledged, one for each append, are those that are durable, buffered or lost; the durable
segment is a subsequence of the appended records and only grows; a record whose append returned
true, or that was flushed before a crash, is durable from then on, at the place that it was given;
and a crash loses nothing in fsync mode, and less than a group in group-commit mode. -/
theorem wal_accounting (mode : Mode) (groupSize : ℤ) (calls : List (Call α)) :
    ((logOf mode groupSize calls).acked = (appended calls).length ∧
      (logOf mode groupSize calls).acked =
        (logOf mode groupSize calls).durable.length + (logOf mode groupSize calls).buffer.length +
          (logOf mode groupSize calls).lost) ∧
    ((logOf mode groupSize calls).durable.Sublist (appended calls) ∧
      ∀ pre, pre <+: calls →
        (logOf mode groupSize pre).durable <+: (logOf mode groupSize calls).durable) ∧
    (∀ pre record, pre ++ [.append record] <+: calls →
      (((logOf mode groupSize pre).append record).2 = true ∨
        ∃ mid, pre ++ .append record :: mid ++ [.flush] <+: calls ∧ .crash ∉ mid) →
      (logOf mode groupSize calls).durable[nextPlace (logOf mode groupSize pre)]? = some record) ∧
    ((mode = .fsync →
        (logOf mode groupSize calls).crash.lost = (logOf mode groupSize calls).lost) ∧
      (mode = .groupCommit → (logOf mode groupSize calls).crash.lost <
        (logOf mode groupSize calls).lost + (WAL.new mode groupSize : WAL α).groupSize)) := by
  obtain ⟨hsound, hmode, hsize, hacked, hheld⟩ := tracks_logOf mode groupSize calls
  refine ⟨⟨hacked, hsound.acked⟩, ⟨(sublist_append_left _ _).trans hheld,
      fun pre hpre => durable_logOf hpre⟩, fun pre record hpre hsaved => ?_, fun hfsync => ?_,
    fun hgroup => ?_⟩
  · rcases hsaved with htrue | ⟨mid, hmid, hcrash⟩
    · exact durable_of_append_true hpre htrue
    · exact durable_of_flush hmid hcrash
  · show _ + (logOf mode groupSize calls).buffer.length = _
    rw [hsound.fsync (hmode.trans hfsync)]
    rfl
  · rw [← hsize]
    exact Nat.add_lt_add_left (hsound.groupCommit (hmode.trans hgroup)) _

/-- Groups of two: the second record fills a group, the third one is buffered when the log crashes,
and the fourth one is flushed. -/
theorem wal_accounting_groups :
    (logOf .groupCommit 2 ([.append 5, .append 6, .append 7, .crash, .append 8, .flush] :
        List (Call ℕ))).durable[1]? = some 6 ∧
      (logOf .groupCommit 2 ([.append 5, .append 6, .append 7, .crash, .append 8, .flush] :
        List (Call ℕ))).durable[2]? = some 8 ∧
      (logOf .groupCommit 2 ([.append 5, .append 6, .append 7] : List (Call ℕ))).crash.lost <
        (logOf .groupCommit 2 ([.append 5, .append 6, .append 7] : List (Call ℕ))).lost + 2 := by
  have h := (wal_accounting .groupCommit 2
    ([.append 5, .append 6, .append 7, .crash, .append 8, .flush] : List (Call ℕ))).2.2.1
  refine ⟨h [.append 5] 6 (by decide) (.inl (by decide)), ?_, ?_⟩
  · exact h [.append 5, .append 6, .append 7, .crash] 8 (by decide)
      (.inr ⟨[], by decide, by decide⟩)
  · exact (wal_accounting .groupCommit 2 _).2.2.2.2 rfl

end Replication.Durability
