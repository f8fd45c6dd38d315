import Mathlib.Data.List.TakeDrop
import Replication.Library.Run
import Replication.Log.Basic

/-!
# Log · WellFormed: positions in the slice

`internal/replication/log.go`, for any sequence of its exported operations. An absolute index is
turned into a slice position by subtracting the snapshot boundary, in signed arithmetic, and every
query relies on the position being inside the slice.

* `Checked` — the queries with the bounds checks of Go: a slice access outside the slice is `none`.
* `WellFormed` — the next index follows the entries that are held, and each of them carries the
  index of its place; `WellFormed.checked_get`, … — the queries of a well-formed log are inside the
  slice, and are those without checks.
* `WellFormed.appendEntry`, `WellFormed.compact`, … — the operations keep a log well formed;
  `not_wellFormed_truncateFrom` — but for a cut at or below the snapshot boundary.
-/

namespace Replication.Log

open Storage Library

variable {I K V : Type}

/-! ### Queries with bounds checks -/

/-- The expression `s[p]`, which panics outside the slice. -/
def sliceAt {α : Type} (s : List α) (p : ℤ) : Option α := if p < 0 then none else s[p.toNat]?

/-- The expression `s[p:]`, which panics outside the slice. -/
def sliceFrom {α : Type} (s : List α) (p : ℤ) : Option (List α) :=
  if p < 0 ∨ s.length < p then none else some (s.drop p.toNat)

namespace Checked

variable (l : ReplicationLog I K V)

/-- The slice position of an index, which may be negative. Source: `log.go` `pos`. -/
def pos (index : ℕ) : ℤ := index - l.snapshotIndex - 1

/-- Source: `log.go` `Get`. -/
def get (index : ℕ) : Option (Option (LogEntry I K V)) :=
  if index = 0 ∨ index ≤ l.snapshotIndex ∨ l.nextIndex ≤ index then some none
  else (sliceAt l.entries (pos l index)).map some

/-- The position from which `GetFrom` copies. Source: `log.go` `GetFrom`. -/
def start (startIndex : ℕ) : ℤ :=
  if startIndex ≤ l.snapshotIndex then max (pos l (l.snapshotIndex + 1)) 0
  else max (pos l startIndex) 0

/-- A copy of a length below zero panics as the slice expression does. Source: `log.go`
`GetFrom`. -/
def getFrom (startIndex : ℕ) : Option (List (LogEntry I K V)) :=
  if l.nextIndex ≤ startIndex then some [] else sliceFrom l.entries (start l startIndex)

/-- Source: `log.go` `TermAt`. -/
def termAt (index : ℕ) : Option ℕ :=
  if index = 0 then some 0
  else if index = l.snapshotIndex then some l.snapshotTerm
  else if index ≤ l.snapshotIndex ∨ l.nextIndex ≤ index then some 0
  else (sliceAt l.entries (pos l index)).map LogEntry.term

/-- Source: `log.go` `LastIndexTerm`. -/
def lastIndexTerm : Option (ℕ × ℕ) :=
  let last := l.nextIndex - 1
  if last = 0 then some (0, 0)
  else if last = l.snapshotIndex then some (last, l.snapshotTerm)
  else (sliceAt l.entries (pos l last)).map fun e => (last, e.term)

/-- Source: `log.go` `Matches`. -/
def «matches» (prevIndex prevTerm : ℕ) : Option Bool :=
  if prevIndex = 0 then some true
  else if prevIndex = l.snapshotIndex then some (prevTerm = l.snapshotTerm)
  else if prevIndex < l.snapshotIndex ∨ l.nextIndex ≤ prevIndex then some false
  else (sliceAt l.entries (pos l prevIndex)).map fun e => e.term = prevTerm

end Checked

/-- A slice from a position inside. -/
lemma sliceFrom_natCast {α : Type} {s : List α} {n : ℕ} (hn : n ≤ s.length) :
    sliceFrom s n = some (s.drop n) := by
  unfold sliceFrom
  rw [if_neg (by omega), Int.toNat_natCast]

/-! ### Well-formed logs -/

/-- The entries that are held have their places between the snapshot boundary and the next index. -/
structure WellFormed (l : ReplicationLog I K V) : Prop where
  next_eq : l.nextIndex = l.snapshotIndex + l.entries.length + 1
  index_eq : ∀ p e, l.entries[p]? = some e → e.index = l.snapshotIndex + p + 1

/-- The empty log. -/
lemma wellFormed_new : WellFormed (ReplicationLog.new : ReplicationLog I K V) where
  next_eq := rfl
  index_eq p e h := by cases h

namespace WellFormed

variable {l : ReplicationLog I K V} (h : WellFormed l)
include h

/-! ### The queries -/

/-- Positions between the boundary and the next index are inside the slice. -/
lemma exists_getElem?_pos {i : ℕ} (hs : l.snapshotIndex < i) (hn : i < l.nextIndex) :
    ∃ e, sliceAt l.entries (Checked.pos l i) = some e ∧ l.entries[l.pos i]? = some e := by
  have hnext := h.next_eq
  have hpos : Checked.pos l i = (l.pos i : ℕ) := by
    unfold Checked.pos ReplicationLog.pos
    omega
  have hlt : l.pos i < l.entries.length := by
    unfold ReplicationLog.pos
    omega
  unfold sliceAt
  rw [hpos, if_neg (by omega), Int.toNat_natCast]
  exact ⟨_, List.getElem?_eq_getElem hlt, List.getElem?_eq_getElem hlt⟩

/-- `Get` does not panic. -/
lemma checked_get (i : ℕ) : Checked.get l i = some (l.get i) := by
  unfold Checked.get ReplicationLog.get
  split_ifs with hout
  · rfl
  · obtain ⟨e, hslice, he⟩ := h.exists_getElem?_pos (i := i) (by omega) (by omega)
    rw [hslice, he]
    rfl

/-- `GetFrom` does not panic. -/
lemma checked_getFrom (i : ℕ) : Checked.getFrom l i = some (l.getFrom i) := by
  have hnext := h.next_eq
  unfold Checked.getFrom ReplicationLog.getFrom Checked.start
  split_ifs with hout hs
  · rfl
  · have hpos : max (Checked.pos l (l.snapshotIndex + 1)) 0 =
        (l.pos (l.snapshotIndex + 1) : ℕ) := by
      unfold Checked.pos ReplicationLog.pos
      omega
    rw [hpos, sliceFrom_natCast (by unfold ReplicationLog.pos; omega)]
  · have hpos : max (Checked.pos l i) 0 = (l.pos i : ℕ) := by
      unfold Checked.pos ReplicationLog.pos
      omega
    rw [hpos, sliceFrom_natCast (by unfold ReplicationLog.pos; omega)]

/-- `TermAt` does not panic. -/
lemma checked_termAt (i : ℕ) : Checked.termAt l i = some (l.termAt i) := by
  unfold Checked.termAt ReplicationLog.termAt
  split_ifs with hzero hs hout
  · rfl
  · rfl
  · rfl
  · obtain ⟨e, hslice, he⟩ := h.exists_getElem?_pos (i := i) (by omega) (by omega)
    rw [hslice, he]
    rfl

/-- `LastIndexTerm` does not panic. -/
lemma checked_lastIndexTerm : Checked.lastIndexTerm l = some l.lastIndexTerm := by
  have hnext := h.next_eq
  dsimp only [Checked.lastIndexTerm, ReplicationLog.lastIndexTerm]
  split_ifs with hzero hs
  · rfl
  · rfl
  · obtain ⟨e, hslice, he⟩ := h.exists_getElem?_pos (i := l.nextIndex - 1) (by omega) (by omega)
    rw [hslice, he]
    rfl

/-- `Matches` does not panic. -/
lemma checked_matches (p t : ℕ) : Checked.matches l p t = some (l.matches p t) := by
  unfold Checked.matches ReplicationLog.matches
  split_ifs with hzero hs hout
  · rfl
  · rfl
  · rfl
  · obtain ⟨e, hslice, he⟩ := h.exists_getElem?_pos (i := p) (by omega) (by omega)
    rw [hslice, he]
    rfl

/-! ### The operations -/

/-- An entry with the next index. -/
lemma concat {e : LogEntry I K V} (he : e.index = l.nextIndex) :
    WellFormed { l with entries := l.entries ++ [e], nextIndex := l.nextIndex + 1 } where
  next_eq := by
    show l.nextIndex + 1 = l.snapshotIndex + (l.entries ++ [e]).length + 1
    rw [List.length_append, List.length_singleton, h.next_eq]
    omega
  index_eq p e' he' := by
    rcases Nat.lt_trichotomy p l.entries.length with hp | rfl | hp
    · rw [List.getElem?_append_left hp] at he'
      exact h.index_eq p e' he'
    · rw [List.getElem?_concat_length, Option.some.injEq] at he'
      rw [← he', he, h.next_eq]
    · rw [List.getElem?_eq_none (by simpa using Nat.succ_le_of_lt hp)] at he'
      cases he'

/-- A cut above the boundary. -/
lemma cut {i : ℕ} (hs : l.snapshotIndex < i) (hn : i ≤ l.nextIndex) :
    WellFormed { l with entries := l.entries.take (l.pos i), nextIndex := i } where
  next_eq := by
    have hnext := h.next_eq
    show i = l.snapshotIndex + (l.entries.take (l.pos i)).length + 1
    rw [List.length_take, ReplicationLog.pos]
    omega
  index_eq p e he := by
    rw [List.getElem?_take] at he
    split_ifs at he
    exact h.index_eq p e he

/-- `Append` keeps a log well formed. -/
lemma append (e : LogEntry I K V) : WellFormed (l.append e).1 :=
  h.concat (e := { e with index := l.nextIndex }) rfl

/-- **One round of `AppendAfter`**, whatever the entry. -/
theorem appendEntry (e : LogEntry I K V) : WellFormed (l.appendEntry e) := by
  unfold ReplicationLog.appendEntry
  split_ifs with hs hlt hterm heq
  · exact h
  · exact h
  · exact (h.cut (Nat.lt_of_not_le hs) (Nat.le_of_lt hlt)).concat (e := e) rfl
  · exact h.concat heq
  · exact h

/-- So does a cut that is above the boundary. -/
lemma truncateFrom {i : ℕ} (hs : i = 0 ∨ l.nextIndex < i ∨ l.snapshotIndex < i) :
    WellFormed (l.truncateFrom i) := by
  unfold ReplicationLog.truncateFrom
  split_ifs with hout
  · exact h
  · exact h.cut (by omega) (by omega)

/-- So does `Compact`, whatever the term. -/
lemma compact (upto term : ℕ) : WellFormed (l.compact upto term) := by
  have hnext := h.next_eq
  dsimp only [ReplicationLog.compact]
  by_cases hle : upto ≤ l.snapshotIndex
  · rw [if_pos hle]
    exact h
  rw [if_neg hle]
  generalize hu : (if l.nextIndex ≤ upto then l.nextIndex - 1 else upto) = u
  have hu' : u < l.nextIndex := by
    rw [← hu]
    split_ifs <;> omega
  by_cases hle' : u ≤ l.snapshotIndex
  · rw [if_pos hle']
    exact h
  rw [if_neg hle', Nat.min_eq_left (by omega)]
  refine ⟨?_, fun p e he => ?_⟩
  · show l.nextIndex = u + (l.entries.drop (u - l.snapshotIndex)).length + 1
    rw [List.length_drop]
    omega
  · show e.index = u + p + 1
    rw [List.getElem?_drop] at he
    have hindex := h.index_eq _ e he
    omega

/-- So does `InstallSnapshot`. -/
lemma installSnapshot (i term : ℕ) : WellFormed (l.installSnapshot i term) := by
  unfold ReplicationLog.installSnapshot
  by_cases hle : i ≤ l.snapshotIndex
  · rw [if_pos hle]
    exact h
  · rw [if_neg hle]
    exact ⟨rfl, fun p e he => by cases he⟩

/-- So does `SetCommitIndex`. -/
lemma setCommitIndex (i : ℕ) : WellFormed (l.setCommitIndex i) := by
  unfold ReplicationLog.setCommitIndex
  split_ifs
  · exact ⟨h.next_eq, h.index_eq⟩
  · exact h

end WellFormed

/-- **`AppendAfter` keeps a log well formed**, whatever the entries. -/
theorem WellFormed.appendAfter {l : ReplicationLog I K V} (h : WellFormed l) (p : ℕ)
    (es : List (LogEntry I K V)) : WellFormed (l.appendAfter p es).1 :=
  List.foldlRecOn es _ h fun _ ih e _ => ih.appendEntry e

/-- A cut at or below the boundary does not. -/
lemma not_wellFormed_truncateFrom {l : ReplicationLog I K V} {i : ℕ} (hpos : i ≠ 0)
    (hn : i ≤ l.nextIndex) (hs : i ≤ l.snapshotIndex) : ¬ WellFormed (l.truncateFrom i) := by
  intro h
  have hnext := h.next_eq
  unfold ReplicationLog.truncateFrom at hnext
  rw [if_neg (by omega)] at hnext
  dsimp only at hnext
  omega

/-! ### Runs -/

/-- An exported operation that changes the log. -/
inductive Op (I K V : Type) where
  | append (entry : LogEntry I K V)
  | appendAfter (prevIndex : ℕ) (entries : List (LogEntry I K V))
  | truncateFrom (index : ℕ)
  | compact (uptoIndex term : ℕ)
  | installSnapshot (index term : ℕ)
  | setCommitIndex (index : ℕ)

/-- An exported operation that reads the log. -/
inductive Query where
  | get (index : ℕ)
  | getFrom (startIndex : ℕ)
  | termAt (index : ℕ)
  | lastIndexTerm
  | matches (prevIndex prevTerm : ℕ)
  deriving DecidableEq, Repr

namespace ReplicationLog

/-- The log after an operation. -/
def step (l : ReplicationLog I K V) : Op I K V → ReplicationLog I K V
  | .append entry => (l.append entry).1
  | .appendAfter prevIndex entries => (l.appendAfter prevIndex entries).1
  | .truncateFrom index => l.truncateFrom index
  | .compact uptoIndex term => l.compact uptoIndex term
  | .installSnapshot index term => l.installSnapshot index term
  | .setCommitIndex index => l.setCommitIndex index

/-- A query accesses outside the slice. -/
def panics (l : ReplicationLog I K V) : Query → Bool
  | .get index => (Checked.get l index).isNone
  | .getFrom startIndex => (Checked.getFrom l startIndex).isNone
  | .termAt index => (Checked.termAt l index).isNone
  | .lastIndexTerm => (Checked.lastIndexTerm l).isNone
  | .matches prevIndex prevTerm => (Checked.matches l prevIndex prevTerm).isNone

/-- A cut does nothing or is above the snapshot boundary. -/
def cutsAbove (l : ReplicationLog I K V) : Op I K V → Bool
  | .truncateFrom index => index = 0 ∨ l.nextIndex < index ∨ l.snapshotIndex < index
  | _ => true

end ReplicationLog

/-- **The queries of a well-formed log are inside the slice.** -/
theorem WellFormed.panics_eq_false {l : ReplicationLog I K V} (h : WellFormed l) (q : Query) :
    l.panics q = false := by
  cases q with
  | get => rw [ReplicationLog.panics, h.checked_get]; rfl
  | getFrom => rw [ReplicationLog.panics, h.checked_getFrom]; rfl
  | termAt => rw [ReplicationLog.panics, h.checked_termAt]; rfl
  | lastIndexTerm => rw [ReplicationLog.panics, h.checked_lastIndexTerm]; rfl
  | «matches» p t => rw [ReplicationLog.panics, h.checked_matches]; rfl

/-- **What one operation does**: it keeps a log well formed iff it does not cut at or below the
boundary. -/
theorem wellFormed_step_iff {l : ReplicationLog I K V} (h : WellFormed l) (op : Op I K V) :
    l.cutsAbove op = true ↔ WellFormed (l.step op) := by
  cases op with
  | append e => exact iff_of_true rfl (h.append e)
  | appendAfter p es => exact iff_of_true rfl (h.appendAfter p es)
  | truncateFrom =>
    rw [ReplicationLog.cutsAbove, decide_eq_true_eq]
    refine ⟨h.truncateFrom, fun h' => ?_⟩
    by_contra hcut
    exact not_wellFormed_truncateFrom (l := l) (by omega) (by omega) (by omega) h'
  | compact i t => exact iff_of_true rfl (h.compact i t)
  | installSnapshot i t => exact iff_of_true rfl (h.installSnapshot i t)
  | setCommitIndex i => exact iff_of_true rfl (h.setCommitIndex i)

/-- **The representation of the log.** From the empty log, for any sequence of the exported
operations with any arguments: the next index is the snapshot boundary and the number of entries and
one, every entry carries the index of its place, and no query accesses outside the slice, all along
the run — iff no cut is made at or below the snapshot boundary. -/
theorem log_representation_iff (ops : List (Op I K V)) :
    Along ReplicationLog.step (fun l op => l.cutsAbove op = true) ReplicationLog.new ops ↔
      ∀ ops', ops' <+: ops →
        (run ReplicationLog.step ReplicationLog.new ops').nextIndex =
            (run ReplicationLog.step ReplicationLog.new ops').snapshotIndex +
              (run ReplicationLog.step ReplicationLog.new ops').entries.length + 1 ∧
          (∀ p e, (run ReplicationLog.step ReplicationLog.new ops').entries[p]? = some e →
            e.index = (run ReplicationLog.step ReplicationLog.new ops').snapshotIndex + p + 1) ∧
          ∀ q, (run ReplicationLog.step ReplicationLog.new ops').panics q = false := by
  refine along_iff_forall_prefix WellFormed
    (fun l : ReplicationLog I K V => l.nextIndex = l.snapshotIndex + l.entries.length + 1 ∧
      (∀ p e, l.entries[p]? = some e → e.index = l.snapshotIndex + p + 1) ∧
      ∀ q, l.panics q = false)
    (fun l h => ⟨h.next_eq, h.index_eq, h.panics_eq_false⟩) (fun l op h => ?_)
    (fun l op hop h => (wellFormed_step_iff h op).mp hop) wellFormed_new ops
  rw [wellFormed_step_iff h op]
  exact ⟨fun h' => ⟨h'.next_eq, h'.index_eq, h'.panics_eq_false⟩, fun h' => ⟨h'.1, h'.2.1⟩⟩

/-- An entry of term `1`. -/
private def plainEntry : LogEntry Unit ℕ ℕ := ⟨0, 1, 7, 0, .set, 0, (), .empty⟩

/-- Two entries of which the first is compacted, and a cut of the second. -/
private def cutAbove : List (Op Unit ℕ ℕ) :=
  [.append plainEntry, .append plainEntry, .compact 1 1, .truncateFrom 2]

theorem log_representation_cutAbove :
    (run ReplicationLog.step ReplicationLog.new cutAbove).nextIndex = 2 ∧
      (run ReplicationLog.step ReplicationLog.new cutAbove).panics (.matches 1 1) = false := by
  have h := (log_representation_iff cutAbove).mp (by decide) cutAbove (List.prefix_refl _)
  exact ⟨h.1, h.2.2 _⟩

/-- After a cut at the snapshot boundary, the last index is below it, and its term is looked up at a
negative position. -/
theorem panics_of_cut_at_boundary :
    (run ReplicationLog.step (ReplicationLog.new : ReplicationLog Unit ℕ ℕ)
        [.append plainEntry, .append plainEntry, .compact 2 1, .truncateFrom 2]).nextIndex = 2 ∧
      (run ReplicationLog.step (ReplicationLog.new : ReplicationLog Unit ℕ ℕ)
        [.append plainEntry, .append plainEntry, .compact 2 1, .truncateFrom 2]).snapshotIndex =
          2 ∧
      (run ReplicationLog.step (ReplicationLog.new : ReplicationLog Unit ℕ ℕ)
        [.append plainEntry, .append plainEntry, .compact 2 1, .truncateFrom 2]).panics
          .lastIndexTerm = true := by
  decide

end Replication.Log
