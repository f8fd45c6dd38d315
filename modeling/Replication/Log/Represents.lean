import Replication.Log.Basic

/-!
# Log · Represents: the replication log as a list

A log `l` with a compacted part stands for the list `ℓ` of all its entries from index `1` on.
`Represents l ℓ` is that relation, and it is a simulation: the queries of `log.go` read `ℓ`
(above the snapshot boundary), and its updates are list operations on `ℓ`. The proofs about the
protocols never unfold a log operation again.
-/

namespace Replication.Log

open Storage Library List

variable {I K V : Type} {i : ℕ}

/-- The log `l` is the list `ℓ` with its first `l.snapshotIndex` entries compacted away. -/
structure Represents (l : ReplicationLog I K V) (ℓ : List (LogEntry I K V)) : Prop where
  /-- The held entries are those above the boundary. -/
  entries_eq : l.entries = ℓ.drop l.snapshotIndex
  snapshot_le : l.snapshotIndex ≤ ℓ.length
  next_eq : l.nextIndex = ℓ.length + 1
  /-- The boundary term is the term of the last compacted entry. -/
  term_eq : l.snapshotTerm = Library.termAt LogEntry.term ℓ l.snapshotIndex
  index_eq : ∀ i e, entryAt ℓ i = some e → e.index = i

/-- The empty log. -/
lemma represents_new : Represents (ReplicationLog.new : ReplicationLog I K V) [] where
  entries_eq := rfl
  snapshot_le := le_rfl
  next_eq := rfl
  term_eq := rfl
  index_eq i e h := by
    simp [entryAt_nil] at h

namespace Represents

variable {l : ReplicationLog I K V} {ℓ : List (LogEntry I K V)} (h : Represents l ℓ)
include h

/-! ### Queries -/

/-- The last index is the length. -/
lemma lastIndex_eq : l.lastIndex = ℓ.length := by
  rw [ReplicationLog.lastIndex, h.next_eq, Nat.add_sub_cancel]

/-- Positions in the slice above the boundary. -/
lemma getElem_pos (hi : l.snapshotIndex < i) : l.entries[l.pos i]? = entryAt ℓ i := by
  obtain ⟨j, rfl⟩ : ∃ j, i = j + 1 := ⟨i - 1, by omega⟩
  rw [h.entries_eq, ReplicationLog.pos, getElem?_drop, entryAt_succ]
  congr 1
  omega

/-- `Get` reads the list above the boundary. -/
lemma get_eq (i : ℕ) : l.get i = if i ≤ l.snapshotIndex then none else entryAt ℓ i := by
  unfold ReplicationLog.get
  by_cases hs : i ≤ l.snapshotIndex
  · rw [if_pos (.inr (.inl hs)), if_pos hs]
  rw [if_neg hs]
  by_cases hn : l.nextIndex ≤ i
  · rw [if_pos (.inr (.inr hn))]
    cases he : entryAt ℓ i with
    | none => rfl
    | some =>
      have := entryAt_bounds he
      have := h.next_eq
      omega
  · rw [if_neg (by omega), h.getElem_pos (by omega)]

/-- `TermAt` reads the list from the boundary on. -/
lemma termAt_eq (hi : l.snapshotIndex ≤ i) : l.termAt i = Library.termAt LogEntry.term ℓ i := by
  unfold ReplicationLog.termAt
  split_ifs with h₀ hs hn
  · subst h₀
    rfl
  · rw [h.term_eq, hs]
  · cases he : entryAt ℓ i with
    | none => rw [Library.termAt, he]; rfl
    | some =>
      have := entryAt_bounds he
      have := h.next_eq
      omega
  · rw [h.getElem_pos (by omega), Library.termAt]

/-- `LastIndexTerm` reads the end of the list. -/
lemma lastIndexTerm_eq : l.lastIndexTerm = (ℓ.length, lastTerm LogEntry.term ℓ) := by
  have hlast : l.nextIndex - 1 = ℓ.length := h.lastIndex_eq
  have hs := h.snapshot_le
  unfold ReplicationLog.lastIndexTerm
  simp only [hlast]
  split_ifs with h₀ hb
  · rw [lastTerm, h₀]
    rfl
  · rw [h.term_eq, ← hb, lastTerm]
  · rw [h.getElem_pos (by omega), lastTerm, Library.termAt]

/-- What the consistency check says of the list. -/
lemma matches_iff {p t : ℕ} : l.matches p t = true ↔
    p = 0 ∨ (l.snapshotIndex ≤ p ∧ p ≤ ℓ.length ∧ Library.termAt LogEntry.term ℓ p = t) := by
  have hs := h.snapshot_le
  have hn := h.next_eq
  unfold ReplicationLog.matches
  split_ifs with h₀ hb hout
  · simp [h₀]
  · rw [h.term_eq, ← hb]
    simp only [decide_eq_true_eq]
    constructor
    · intro ht
      exact .inr ⟨le_rfl, by omega, ht.symm⟩
    · rintro (h0 | ⟨-, -, ht⟩)
      · exact absurd h0 h₀
      · exact ht.symm
  · constructor
    · intro hf
      cases hf
    · rintro (h0 | ⟨h1, h2, -⟩)
      · exact absurd h0 h₀
      · omega
  · rw [h.getElem_pos (by omega), ← Library.termAt]
    simp only [decide_eq_true_eq]
    constructor
    · intro ht
      exact .inr ⟨by omega, by omega, ht⟩
    · rintro (h0 | ⟨-, -, ht⟩)
      · exact absurd h0 h₀
      · exact ht

/-- `GetFrom` reads the list above the boundary. -/
lemma getFrom_eq (hi : l.snapshotIndex < i) : l.getFrom i = ℓ.drop (i - 1) := by
  have hn := h.next_eq
  unfold ReplicationLog.getFrom
  split_ifs with hout hs
  · rw [drop_eq_nil_of_le (by omega)]
  · omega
  · rw [h.entries_eq, ReplicationLog.pos, drop_drop]
    congr 1
    omega

/-! ### Updates -/

/-- `SetCommitIndex` leaves the list. -/
lemma setCommitIndex (idx : ℕ) : Represents (l.setCommitIndex idx) ℓ := by
  unfold ReplicationLog.setCommitIndex
  split_ifs
  · exact ⟨h.entries_eq, h.snapshot_le, h.next_eq, h.term_eq, h.index_eq⟩
  · exact h

/-- The commit index is not part of the list. -/
lemma of_commitIndex (c : ℕ) : Represents { l with commitIndex := c } ℓ :=
  ⟨h.entries_eq, h.snapshot_le, h.next_eq, h.term_eq, h.index_eq⟩

/-- An entry at the end. -/
lemma concat {e : LogEntry I K V} (he : e.index = ℓ.length + 1) :
    Represents { l with entries := l.entries ++ [e], nextIndex := l.nextIndex + 1 } (ℓ ++ [e]) where
  entries_eq := by
    rw [h.entries_eq]
    exact (drop_append_of_le_length h.snapshot_le).symm
  snapshot_le := by
    rw [length_append]
    exact h.snapshot_le.trans (Nat.le_add_right _ _)
  next_eq := by
    simp [h.next_eq]
  term_eq := by
    show l.snapshotTerm = _
    rw [h.term_eq, Library.termAt, Library.termAt,
      entryAt_prefix_eq (prefix_append ℓ [e]) h.snapshot_le]
  index_eq i e' he' := by
    by_cases hi : i ≤ ℓ.length
    · rw [entryAt_prefix_eq (prefix_append ℓ [e]) hi] at he'
      exact h.index_eq i e' he'
    have hi' : i = ℓ.length + 1 := by
      have := (entryAt_bounds he').2
      simp at this
      omega
    subst hi'
    rw [entryAt_append_self] at he'
    cases he'
    exact he

/-- A cut above the boundary. -/
lemma cut (hs : l.snapshotIndex < i) (hi : i ≤ ℓ.length) :
    Represents { l with entries := l.entries.take (l.pos i), nextIndex := i } (ℓ.take (i - 1)) where
  entries_eq := by
    show l.entries.take (l.pos i) = (ℓ.take (i - 1)).drop l.snapshotIndex
    rw [h.entries_eq, ReplicationLog.pos, drop_take]
    congr 1
    omega
  snapshot_le := by
    show l.snapshotIndex ≤ _
    rw [length_take]
    omega
  next_eq := by
    show i = _
    rw [length_take]
    omega
  term_eq := by
    show l.snapshotTerm = Library.termAt LogEntry.term _ l.snapshotIndex
    rw [h.term_eq, Library.termAt, Library.termAt, entryAt_take (by omega)]
  index_eq j e he := by
    have hj := (entryAt_bounds he).2
    rw [length_take] at hj
    rw [entryAt_take (by omega)] at he
    exact h.index_eq j e he

/-- `Append` adds an entry with the next index. -/
lemma append (e : LogEntry I K V) :
    Represents (l.append e).1 (ℓ ++ [{ e with index := ℓ.length + 1 }]) := by
  have := h.concat (e := { e with index := ℓ.length + 1 }) rfl
  unfold ReplicationLog.append
  rw [h.next_eq] at this ⊢
  exact this

/-- One round of `AppendAfter` splices the entry in at its own index. -/
lemma appendEntry {e : LogEntry I K V} (he : 0 < e.index) :
    Represents (l.appendEntry e) (splice LogEntry.term l.snapshotIndex ℓ (e.index - 1) e) := by
  have hn := h.next_eq
  have hs := h.snapshot_le
  unfold ReplicationLog.appendEntry splice
  by_cases hsn : e.index ≤ l.snapshotIndex
  · rw [if_pos hsn, if_pos (by omega)]
    exact h
  rw [if_neg hsn, if_neg (show ¬ e.index - 1 < l.snapshotIndex by omega),
    h.getElem_pos (Nat.lt_of_not_le hsn)]
  obtain ⟨j, hj⟩ : ∃ j, e.index = j + 1 := ⟨e.index - 1, by omega⟩
  rw [hj, entryAt_succ, Nat.add_sub_cancel]
  cases hc : ℓ[j]? with
  | none =>
    have hlen : ℓ.length ≤ j := List.getElem?_eq_none_iff.mp hc
    rw [if_neg (by omega)]
    by_cases hend : j = ℓ.length
    · simp only [if_pos (show j + 1 = l.nextIndex by omega), if_pos hend]
      exact h.concat (by omega)
    · simp only [if_neg (show ¬ j + 1 = l.nextIndex by omega), if_neg hend]
      exact h
  | some e' =>
    have hlt : j < ℓ.length := (List.getElem?_eq_some_iff.mp hc).1
    rw [if_pos (by omega)]
    by_cases ht : e'.term = e.term
    · rw [if_pos (show (some e').elim 0 LogEntry.term = e.term from ht)]
      simp only [if_pos ht]
      exact h
    · rw [if_neg (show ¬ (some e').elim 0 LogEntry.term = e.term from ht)]
      simp only [if_neg ht]
      have hcut := h.cut (i := j + 1) (by omega) (by omega)
      rw [Nat.add_sub_cancel] at hcut
      exact hcut.concat (by rw [length_take_of_le hlt.le, hj])

end Represents

section

variable (l : ReplicationLog I K V)

/-- The entries stay. -/
@[simp] lemma setCommitIndex_entries (idx : ℕ) : (l.setCommitIndex idx).entries = l.entries := by
  unfold ReplicationLog.setCommitIndex
  split_ifs <;> rfl

/-- The boundary stays. -/
@[simp] lemma setCommitIndex_snapshotIndex (idx : ℕ) :
    (l.setCommitIndex idx).snapshotIndex = l.snapshotIndex := by
  unfold ReplicationLog.setCommitIndex
  split_ifs <;> rfl

/-- One round leaves the boundary. -/
@[simp] lemma appendEntry_snapshotIndex (e : LogEntry I K V) :
    (l.appendEntry e).snapshotIndex = l.snapshotIndex := by
  unfold ReplicationLog.appendEntry
  split_ifs <;> rfl

/-- One round leaves the commit index. -/
@[simp] lemma appendEntry_commitIndex (e : LogEntry I K V) :
    (l.appendEntry e).commitIndex = l.commitIndex := by
  unfold ReplicationLog.appendEntry
  split_ifs <;> rfl

/-- `AppendAfter` leaves the boundary. -/
@[simp] lemma appendAfter_snapshotIndex (p : ℕ) (es : List (LogEntry I K V)) :
    (l.appendAfter p es).1.snapshotIndex = l.snapshotIndex :=
  foldlRecOn (motive := (ReplicationLog.snapshotIndex · = l.snapshotIndex)) es _ rfl
    fun _ ih e _ => (appendEntry_snapshotIndex _ e).trans ih

/-- `AppendAfter` leaves the commit index. -/
@[simp] lemma appendAfter_commitIndex (p : ℕ) (es : List (LogEntry I K V)) :
    (l.appendAfter p es).1.commitIndex = l.commitIndex :=
  foldlRecOn (motive := (ReplicationLog.commitIndex · = l.commitIndex)) es _ rfl
    fun _ ih e _ => (appendEntry_commitIndex _ e).trans ih

end

/-- **`AppendAfter` splices the incoming entries in**, when they carry the indices that follow
`prevIndex`. -/
theorem Represents.appendAfter {l : ReplicationLog I K V} {ℓ es : List (LogEntry I K V)} {p : ℕ}
    (h : Represents l ℓ) (hes : ∀ j e, es[j]? = some e → e.index = p + j + 1) :
    Represents (l.appendAfter p es).1 (spliceAll LogEntry.term l.snapshotIndex ℓ p es) := by
  dsimp only [ReplicationLog.appendAfter]
  induction es generalizing l ℓ p with
  | nil => exact h
  | cons e es ih =>
    have he : e.index = p + 1 := hes 0 e rfl
    have h' := h.appendEntry (e := e) (by omega)
    rw [he, Nat.add_sub_cancel] at h'
    have := ih (p := p + 1) h' (fun j e' hj => by
      have := hes (j + 1) e' (by simpa using hj)
      omega)
    rwa [appendEntry_snapshotIndex] at this

/-! ### Compaction and snapshots -/

/-- `Compact` with the term of the list. -/
lemma Represents.compact_eq {l : ReplicationLog I K V} {ℓ : List (LogEntry I K V)}
    (h : Represents l ℓ) (hs : l.snapshotIndex < i) (hi : i ≤ ℓ.length) :
    l.compact i (Library.termAt LogEntry.term ℓ i) =
      { l with
        entries := ℓ.drop i, snapshotIndex := i,
        snapshotTerm := Library.termAt LogEntry.term ℓ i } := by
  have hn := h.next_eq
  have hlen : l.entries.length = ℓ.length - l.snapshotIndex := by
    rw [h.entries_eq, length_drop]
  have hdrop : min (i - l.snapshotIndex) l.entries.length = i - l.snapshotIndex := by omega
  unfold ReplicationLog.compact
  rw [if_neg (by omega)]
  simp only [if_neg (show ¬ l.nextIndex ≤ i by omega), if_neg (show ¬ i ≤ l.snapshotIndex by omega),
    hdrop]
  have hent : l.entries.drop (i - l.snapshotIndex) = ℓ.drop i := by
    rw [h.entries_eq, drop_drop]
    congr 1
    omega
  rw [hent]
  congr 1
  split_ifs with ht
  · rfl
  · have := h.getElem_pos hs
    rw [ReplicationLog.pos] at this
    rw [this, Library.termAt]

/-- Compaction leaves the list. -/
lemma Represents.compact {l : ReplicationLog I K V} {ℓ : List (LogEntry I K V)} (h : Represents l ℓ)
    (hs : l.snapshotIndex < i) (hi : i ≤ ℓ.length) :
    Represents (l.compact i (Library.termAt LogEntry.term ℓ i)) ℓ := by
  rw [h.compact_eq hs hi]
  exact ⟨rfl, hi, h.next_eq, rfl, h.index_eq⟩

/-- A snapshot replaces the list by what it stands for. -/
lemma represents_installSnapshot {l : ReplicationLog I K V} {ℓ' : List (LogEntry I K V)}
    (hs : l.snapshotIndex < i) (hlen : ℓ'.length = i)
    (hidx : ∀ j e, entryAt ℓ' j = some e → e.index = j) :
    Represents (l.installSnapshot i (lastTerm LogEntry.term ℓ')) ℓ' := by
  unfold ReplicationLog.installSnapshot
  rw [if_neg (by omega)]
  subst hlen
  exact ⟨by simp, le_rfl, rfl, rfl, hidx⟩

end Replication.Log
