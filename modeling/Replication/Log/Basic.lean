import Replication.Storage.Entry
import Replication.Library.TermLog

/-!
# Log · Basic: the replication log

`internal/replication/log.go`: a log of entries with an optional compacted part. Indices are
natural numbers (the code's `uint64`); a slice access outside the slice, which panics in Go,
reads `none` here.

* The operations, under the source's names, from `append` to `installSnapshot`.
* `Represents l ℓ` — the log `l` is the list `ℓ` of all its entries from index `1` on, with the
  first `l.snapshotIndex` of them compacted away. Every operation is described by what it does
  to `ℓ`: `lastIndex_eq`, `get_eq`, `termAt_eq`, `matches_iff`, `getFrom_eq`, `lastIndexTerm_eq`
  for the queries, and `append`, `appendAfter`, `compact`, `installSnapshot` for the updates.
  Compaction leaves `ℓ` as it is.
-/

namespace Replication.Log

open Storage Library

variable {I K V : Type}

/-- A replication log. Source: `log.go` `ReplicationLog`. -/
structure ReplicationLog (I K V : Type) where
  /-- The entries that are still held. -/
  entries : List (LogEntry I K V)
  commitIndex : ℕ
  /-- The index of the next new entry. -/
  nextIndex : ℕ
  /-- Entries up to this index have been compacted away. -/
  snapshotIndex : ℕ
  /-- The term of the entry at `snapshotIndex`. -/
  snapshotTerm : ℕ

namespace ReplicationLog

/-- The empty log. Source: `log.go` `NewReplicationLog`. -/
def new : ReplicationLog I K V := ⟨[], 0, 1, 0, 0⟩

variable (l : ReplicationLog I K V)

/-- The slice position of an absolute index. The code's value is negative up to `snapshotIndex`;
its callers exclude that or replace it by `0`. Source: `log.go` `pos`. -/
def pos (index : ℕ) : ℕ := index - l.snapshotIndex - 1

/-- Append an entry under the next index. Source: `log.go` `Append`. -/
def append (entry : LogEntry I K V) : ReplicationLog I K V × ℕ :=
  ({ l with
      entries := l.entries ++ [{ entry with index := l.nextIndex }]
      nextIndex := l.nextIndex + 1 }, l.nextIndex)

/-- The entry at an index, if it is still held. Source: `log.go` `Get`. -/
def get (index : ℕ) : Option (LogEntry I K V) :=
  if index = 0 ∨ index ≤ l.snapshotIndex ∨ l.nextIndex ≤ index then none
  else l.entries[l.pos index]?

/-- The held entries from an index on. Source: `log.go` `GetFrom`. -/
def getFrom (startIndex : ℕ) : List (LogEntry I K V) :=
  if l.nextIndex ≤ startIndex then []
  else if startIndex ≤ l.snapshotIndex then l.entries.drop (l.pos (l.snapshotIndex + 1))
  else l.entries.drop (l.pos startIndex)

/-- The index of the last entry. Source: `log.go` `LastIndex`. -/
def lastIndex : ℕ := l.nextIndex - 1

/-- Raise the commit index. Source: `log.go` `SetCommitIndex`. -/
def setCommitIndex (idx : ℕ) : ReplicationLog I K V :=
  if l.commitIndex < idx then { l with commitIndex := idx } else l

/-- Cut the log from an index on; a position below the slice counts as its start. Source: `log.go`
`TruncateFrom`. -/
def truncateFrom (index : ℕ) : ReplicationLog I K V :=
  if index = 0 ∨ l.nextIndex < index then l
  else { l with entries := l.entries.take (l.pos index), nextIndex := index }

/-- The term at an index, `0` where it is not known. Source: `log.go` `TermAt`. -/
def termAt (index : ℕ) : ℕ :=
  if index = 0 then 0
  else if index = l.snapshotIndex then l.snapshotTerm
  else if index ≤ l.snapshotIndex ∨ l.nextIndex ≤ index then 0
  else (l.entries[l.pos index]?).elim 0 LogEntry.term

/-- Index and term of the last entry or of the snapshot. Source: `log.go` `LastIndexTerm`. -/
def lastIndexTerm : ℕ × ℕ :=
  let last := l.nextIndex - 1
  if last = 0 then (0, 0)
  else if last = l.snapshotIndex then (last, l.snapshotTerm)
  else (last, (l.entries[l.pos last]?).elim 0 LogEntry.term)

/-- The consistency check of AppendEntries. Source: `log.go` `Matches`. -/
def «matches» (prevIndex prevTerm : ℕ) : Bool :=
  if prevIndex = 0 then true
  else if prevIndex = l.snapshotIndex then prevTerm = l.snapshotTerm
  else if prevIndex < l.snapshotIndex ∨ l.nextIndex ≤ prevIndex then false
  else (l.entries[l.pos prevIndex]?).elim 0 LogEntry.term = prevTerm

/-- One round of the loop of `AppendAfter`: skip what the snapshot covers and what is there with
the same term, cut the log at a conflict, append at the end. -/
def appendEntry (e : LogEntry I K V) : ReplicationLog I K V :=
  if e.index ≤ l.snapshotIndex then l
  else if e.index < l.nextIndex then
    if (l.entries[l.pos e.index]?).elim 0 LogEntry.term = e.term then l
    else
      -- conflict: after the cut `e.index` is the next index, so the entry is appended
      { l with entries := l.entries.take (l.pos e.index) ++ [e], nextIndex := e.index + 1 }
  else if e.index = l.nextIndex then
    { l with entries := l.entries ++ [e], nextIndex := l.nextIndex + 1 }
  else l

/-- Apply the entries of an AppendEntries message; returns the last index. The previous index
is not read. Source: `log.go` `AppendAfter`. -/
def appendAfter (_prevIndex : ℕ) (entries : List (LogEntry I K V)) : ReplicationLog I K V × ℕ :=
  let l' := entries.foldl appendEntry l
  (l', l'.nextIndex - 1)

/-- The snapshot boundary. Source: `log.go` `SnapshotBoundary`. -/
abbrev snapshotBoundary : ℕ × ℕ := (l.snapshotIndex, l.snapshotTerm)

/-- Discard the entries up to an index. Source: `log.go` `Compact`. -/
def compact (uptoIndex term : ℕ) : ReplicationLog I K V :=
  if uptoIndex ≤ l.snapshotIndex then l
  else
    let upto := if l.nextIndex ≤ uptoIndex then l.nextIndex - 1 else uptoIndex
    if upto ≤ l.snapshotIndex then l
    else
      let drop := min (upto - l.snapshotIndex) l.entries.length
      { l with
        entries := l.entries.drop drop
        snapshotIndex := upto
        snapshotTerm :=
          if term ≠ 0 then term else (l.entries[drop - 1]?).elim 0 LogEntry.term }

/-- Reset the log to a snapshot boundary. Source: `log.go` `InstallSnapshot`. -/
def installSnapshot (index term : ℕ) : ReplicationLog I K V :=
  if index ≤ l.snapshotIndex then l
  else
    { entries := []
      snapshotIndex := index
      snapshotTerm := term
      nextIndex := index + 1
      commitIndex := if l.commitIndex < index then index else l.commitIndex }

end ReplicationLog

end Replication.Log
