import Replication.Log.Represents
import Replication.Log.WellFormed

/-!
# Log · AppendAfter: what AppendEntries writes

`internal/replication/log.go`, `AppendAfter`. The loop skips, cuts or appends for each incoming
entry. On the entries of a well-formed log it is a splice at the position that belongs to
`prevIndex`, so its outcome does not depend on where the first conflict is.
-/

namespace Replication.Log

open Storage Library List

variable {I K V : Type} {l : ReplicationLog I K V} {e : LogEntry I K V} {p : ℕ}

section

variable (h : WellFormed l)

include h

/-- A well-formed log without a snapshot represents its entries; the term of the boundary, which
nothing reads there, apart. -/
lemma WellFormed.represents (hsnap : l.snapshotIndex = 0) :
    Represents { l with snapshotTerm := 0 } l.entries where
  entries_eq := by
    show l.entries = l.entries.drop l.snapshotIndex
    rw [hsnap, drop_zero]
  snapshot_le := hsnap.trans_le (Nat.zero_le _)
  next_eq := by
    have hnext := h.next_eq
    rwa [hsnap, Nat.zero_add] at hnext
  term_eq := by
    show 0 = Library.termAt LogEntry.term l.entries l.snapshotIndex
    rw [hsnap]
    rfl
  index_eq i e he := by
    obtain ⟨j, rfl⟩ : ∃ j, i = j + 1 := ⟨i - 1, by have := entryAt_bounds he; omega⟩
    have hindex := h.index_eq j e he
    omega

/-- **The loop splices all entries in**, when they carry the indices that follow `prevIndex`. -/
theorem WellFormed.entries_appendAfter (hsnap : l.snapshotIndex = 0) {es : List (LogEntry I K V)}
    (hes : ∀ j e, es[j]? = some e → e.index = p + j + 1) :
    (l.appendAfter p es).1.entries = spliceAll LogEntry.term 0 l.entries p es := by
  have hterm : (({ l with snapshotTerm := 0 } : ReplicationLog I K V).appendAfter p es).1 =
      { (l.appendAfter p es).1 with snapshotTerm := 0 } := by
    refine foldl_hom (fun l : ReplicationLog I K V => { l with snapshotTerm := 0 }) fun l e => ?_
    unfold ReplicationLog.appendEntry
    split_ifs <;> first | rfl | contradiction
  have hspliced := ((h.represents hsnap).appendAfter hes).entries_eq
  rw [hterm] at hspliced
  simpa [hsnap] using hspliced

/-- Without a snapshot, `Get` reads the entries. -/
lemma WellFormed.get_eq_entryAt (hsnap : l.snapshotIndex = 0) (i : ℕ) :
    l.get i = entryAt l.entries i := by
  refine ((h.represents hsnap).get_eq i).trans ?_
  cases i with
  | zero => exact if_pos (Nat.zero_le _)
  | succ i => exact if_neg (hsnap ▸ Nat.not_succ_le_zero i)

/-- Entries are at the places of their indices. -/
lemma WellFormed.mem_iff_getElem? (hsnap : l.snapshotIndex = 0) (he : e.index = p + 1) :
    e ∈ l.entries ↔ l.entries[p]? = some e := by
  refine ⟨fun hmem => ?_, mem_of_getElem?⟩
  obtain ⟨q, hq⟩ := List.mem_iff_getElem?.mp hmem
  have hindex := h.index_eq q e hq
  obtain rfl : q = p := by omega
  exact hq

/-- An entry that is there is skipped. -/
lemma appendEntry_eq_self (hs : l.snapshotIndex < e.index)
    (he : l.entries[l.pos e.index]? = some e) : l.appendEntry e = l := by
  have hnext := h.next_eq
  have hlt := (List.getElem?_eq_some_iff.mp he).1
  unfold ReplicationLog.appendEntry
  rw [if_neg (Nat.not_le.mpr hs), if_pos (by unfold ReplicationLog.pos at hlt; omega), he]
  exact if_pos rfl

end

/-- So is a message of such entries. -/
lemma appendAfter_eq_self {es : List (LogEntry I K V)} (h : ∀ e ∈ es, l.appendEntry e = l)
    (p : ℕ) : l.appendAfter p es = (l, l.lastIndex) := by
  have hfold : es.foldl ReplicationLog.appendEntry l = l := by
    induction es with
    | nil => rfl
    | cons e es ih =>
      rw [foldl_cons, h e mem_cons_self]
      exact ih fun e' he' => h e' (mem_cons_of_mem _ he')
  unfold ReplicationLog.appendAfter
  rw [hfold]
  rfl

/-- The check fails behind the last entry. -/
lemma WellFormed.le_length_of_matches (h : WellFormed l) (hsnap : l.snapshotIndex = 0) {t : ℕ}
    (hm : l.matches p t = true) : p ≤ l.entries.length := by
  have hnext := h.next_eq
  unfold ReplicationLog.matches at hm
  by_contra hlt
  rw [if_neg (by omega), if_neg (by omega), if_pos (by omega)] at hm
  cases hm

section spec

variable {prev : ℕ} {es : List (LogEntry I K V)}

/-- An incoming entry has another term than the entry of the log at its index. -/
def Conflicts (l : ReplicationLog I K V) (es : List (LogEntry I K V)) : Prop :=
  ∃ e ∈ es, ∃ e' ∈ l.entries, e'.index = e.index ∧ e'.term ≠ e.term

/-- Conflicts by position are conflicts by index. -/
lemma conflict_iff (h : WellFormed l) (hsnap : l.snapshotIndex = 0)
    (hes : ∀ j e, es[j]? = some e → e.index = prev + j + 1) :
    Conflict LogEntry.term l.entries prev es ↔ Conflicts l es := by
  constructor
  · rintro ⟨j, e, e', hj, he', hne⟩
    have hindex := h.index_eq _ e' he'
    have := hes j e hj
    exact ⟨e, mem_of_getElem? hj, e', mem_of_getElem? he', by omega, hne⟩
  · rintro ⟨e, he, e', he', hindex, hne⟩
    obtain ⟨j, hj⟩ := List.mem_iff_getElem?.mp he
    have := hes j e hj
    refine ⟨j, e, e', hj, (h.mem_iff_getElem? hsnap ?_).mp he', hne⟩
    omega

/-- **What `AppendAfter` leaves** of a log without a snapshot, when index and term identify
entries. -/
theorem entries_appendAfter_cases (h : WellFormed l) (hsnap : l.snapshotIndex = 0)
    (hprev : prev ≤ l.entries.length) (hes : ∀ j e, es[j]? = some e → e.index = prev + j + 1)
    (hid : ∀ e ∈ es, ∀ e' ∈ l.entries, e'.index = e.index → e'.term = e.term → e' = e) :
    (Conflicts l es → (l.appendAfter prev es).1.entries = l.entries.take prev ++ es) ∧
      (¬ Conflicts l es → (l.appendAfter prev es).1.entries =
        l.entries.take prev ++ es ++ l.entries.drop (prev + es.length)) := by
  have hident : Identified LogEntry.term l.entries prev es := by
    intro j e e' hj he'
    have hindex := h.index_eq _ e' he'
    have := hes j e hj
    exact hid e (mem_of_getElem? hj) e' (mem_of_getElem? he') (by omega)
  rw [h.entries_appendAfter hsnap hes, ← conflict_iff h hsnap hes]
  exact spliceAll_cases hprev hident

/-- **The specification of `AppendAfter`**, for a well-formed log without a snapshot that passes the
consistency check at `prev`, and entries with consecutive indices from there on that are identified
by index and term: all indices up to `prev` are unchanged, the log equals the incoming entries on
their range, the old entries behind it are kept if no incoming entry conflicted in term and dropped
if one did, the last index is returned, and the same call again changes nothing. -/
theorem appendAfter_spec {prevTerm : ℕ} (h : WellFormed l) (hsnap : l.snapshotIndex = 0)
    (hmatch : l.matches prev prevTerm = true)
    (hes : ∀ j e, es[j]? = some e → e.index = prev + j + 1)
    (hid : ∀ e ∈ es, ∀ e' ∈ l.entries, e'.index = e.index → e'.term = e.term → e' = e) :
    (∀ i, i ≤ prev → (l.appendAfter prev es).1.get i = l.get i) ∧
      (∀ j, j < es.length → (l.appendAfter prev es).1.get (prev + j + 1) = es[j]?) ∧
      (Conflicts l es → ∀ i, prev + es.length < i → (l.appendAfter prev es).1.get i = none) ∧
      (¬ Conflicts l es → ∀ i, prev + es.length < i →
        (l.appendAfter prev es).1.get i = l.get i) ∧
      (l.appendAfter prev es).2 = (l.appendAfter prev es).1.lastIndex ∧
      (l.appendAfter prev es).1.lastIndex = (l.appendAfter prev es).1.entries.length ∧
      (l.appendAfter prev es).1.appendAfter prev es = l.appendAfter prev es := by
  have hprev := h.le_length_of_matches hsnap hmatch
  have h' : WellFormed (l.appendAfter prev es).1 := h.appendAfter prev es
  have hsnap' : (l.appendAfter prev es).1.snapshotIndex = 0 := by
    rw [appendAfter_snapshotIndex, hsnap]
  obtain ⟨hcut, hkeep⟩ := entries_appendAfter_cases h hsnap hprev hes hid
  have htake : (l.entries.take prev).length = prev := length_take_of_le hprev
  -- both outcomes begin with the old entries up to `prev` and the incoming ones
  obtain ⟨rest, hrest⟩ : ∃ rest, (l.appendAfter prev es).1.entries =
      l.entries.take prev ++ es ++ rest := by
    by_cases hc : Conflicts l es
    · exact ⟨[], by rw [hcut hc, append_nil]⟩
    · exact ⟨_, hkeep hc⟩
  have hrange : ∀ j e, es[j]? = some e →
      (l.appendAfter prev es).1.entries[prev + j]? = some e := by
    intro j e hj
    have hlt := (List.getElem?_eq_some_iff.mp hj).1
    rw [hrest, getElem?_append_left (by rw [length_append, htake]; omega),
      getElem?_append_right (by omega), htake, Nat.add_sub_cancel_left, hj]
  refine ⟨fun i hi => ?_, fun j hj => ?_, fun hc i hi => ?_, fun hc i hi => ?_, rfl, ?_, ?_⟩
  · rw [h'.get_eq_entryAt hsnap', h.get_eq_entryAt hsnap, hrest, append_assoc,
      entryAt_prefix_eq (prefix_append _ _) (by omega), entryAt_take hi]
  · rw [h'.get_eq_entryAt hsnap', entryAt_succ]
    exact hrange j es[j] (getElem?_eq_getElem hj) |>.trans (getElem?_eq_getElem hj).symm
  · rw [h'.get_eq_entryAt hsnap', hcut hc]
    obtain ⟨i, rfl⟩ : ∃ k, i = k + 1 := ⟨i - 1, by omega⟩
    rw [entryAt_succ]
    refine getElem?_eq_none ?_
    rw [length_append, htake]
    omega
  · rw [h'.get_eq_entryAt hsnap', h.get_eq_entryAt hsnap, hkeep hc]
    obtain ⟨i, rfl⟩ : ∃ k, i = k + 1 := ⟨i - 1, by omega⟩
    have hlen : (l.entries.take prev ++ es).length = prev + es.length := by
      rw [length_append, htake]
    rw [entryAt_succ, entryAt_succ, getElem?_append_right (by omega), hlen, getElem?_drop]
    congr 1
    omega
  · have hnext := h'.next_eq
    rw [ReplicationLog.lastIndex]
    omega
  · -- every entry is there now
    refine (appendAfter_eq_self (fun e he => ?_) prev).trans rfl
    obtain ⟨j, hj⟩ := List.mem_iff_getElem?.mp he
    have hindex := hes j e hj
    refine appendEntry_eq_self h' (by omega) ?_
    rw [ReplicationLog.pos, hsnap', hindex]
    exact hrange j e hj

/-- An entry of key `7`. -/
private def termed (index term : ℕ) : LogEntry Unit ℕ ℕ := ⟨index, term, 7, 0, .set, 0, (), .empty⟩

/-- A log of three entries, of which the last two are of the first term. -/
private def oldLog : ReplicationLog Unit ℕ ℕ where
  entries := [termed 1 1, termed 2 1, termed 3 1]
  commitIndex := 1
  nextIndex := 4
  snapshotIndex := 0
  snapshotTerm := 0

/-- An entry of a later term at the second index drops the third. -/
theorem appendAfter_spec_oldLog :
    (oldLog.appendAfter 1 [termed 2 2]).1.get 1 = some (termed 1 1) ∧
      (oldLog.appendAfter 1 [termed 2 2]).1.get 2 = some (termed 2 2) ∧
      (oldLog.appendAfter 1 [termed 2 2]).1.get 3 = none := by
  have hwf : WellFormed oldLog := by
    refine ⟨rfl, fun p e he => ?_⟩
    rcases p with _ | _ | _ | p
    · cases he; rfl
    · cases he; rfl
    · cases he; rfl
    · cases he
  have hes : ∀ j e, [termed 2 2][j]? = some e → e.index = 1 + j + 1 := by
    rintro (_ | j) e hj
    · cases hj; rfl
    · cases hj
  have hmatch : oldLog.matches 1 1 = true := by decide
  have hspec := appendAfter_spec hwf rfl hmatch hes (fun e he e' he' hindex hterm => by
      obtain rfl := mem_singleton.mp he
      rcases mem_cons.mp he' with rfl | he'
      · cases hindex
      rcases mem_cons.mp he' with rfl | he'
      · cases hterm
      rcases mem_singleton.mp he' with rfl
      cases hindex)
  refine ⟨hspec.1 1 le_rfl, hspec.2.1 0 (by decide), hspec.2.2.1 ?_ 3 (by decide)⟩
  exact ⟨termed 2 2, mem_singleton_self _, termed 2 1,
    mem_cons_of_mem _ mem_cons_self, rfl, by decide⟩

end spec

end Replication.Log
