import Replication.Log.WellFormed

/-!
# Log · Compaction: compacting a log is not observable above the boundary

`internal/replication/log.go`, `Compact`. A well-formed log and the same log compacted to an index
answer alike from that index on, and later writes do the same to both as long as they do not
contradict what was compacted.
-/

namespace Replication.Log

open Storage List

variable {I K V : Type} {l : ReplicationLog I K V} {i : ℕ} {j : ℕ}

/-- The log without its entries up to `i`, and `term` as the term of the boundary. -/
def compactTo (i term : ℕ) (l : ReplicationLog I K V) : ReplicationLog I K V :=
  { l with
    entries := l.entries.drop (i - l.snapshotIndex), snapshotIndex := i, snapshotTerm := term }

/-! ### Queries from the boundary on -/

section

variable (hj : l.snapshotIndex < j)

include hj

/-- `Get` above the boundary. -/
lemma get_of_lt : l.get j = if l.nextIndex ≤ j then none else l.entries[l.pos j]? := by
  unfold ReplicationLog.get
  by_cases hn : l.nextIndex ≤ j
  · rw [if_pos (.inr (.inr hn)), if_pos hn]
  · rw [if_neg (by omega), if_neg hn]

/-- `GetFrom` above the boundary. -/
lemma getFrom_of_lt : l.getFrom j = if l.nextIndex ≤ j then [] else l.entries.drop (l.pos j) := by
  unfold ReplicationLog.getFrom
  rw [if_neg (show ¬ j ≤ l.snapshotIndex by omega)]

/-- `TermAt` above the boundary. -/
lemma termAt_of_lt :
    l.termAt j =
      if l.nextIndex ≤ j then 0 else (l.entries[l.pos j]?).elim 0 LogEntry.term := by
  unfold ReplicationLog.termAt
  rw [if_neg (by omega), if_neg (by omega)]
  by_cases hn : l.nextIndex ≤ j
  · rw [if_pos (.inr hn), if_pos hn]
  · rw [if_neg (by omega), if_neg hn]

/-- Logs with the same entry at an index have the same term there. -/
lemma termAt_congr {l' : ReplicationLog I K V} (hsnap : l'.snapshotIndex = l.snapshotIndex)
    (hn : j < l.nextIndex) (hn' : j < l'.nextIndex)
    (he : l'.entries[l.pos j]? = l.entries[l.pos j]?) : l'.termAt j = l.termAt j := by
  have hpos : l'.pos j = l.pos j := by rw [ReplicationLog.pos, ReplicationLog.pos, hsnap]
  rw [termAt_of_lt hj, termAt_of_lt (hsnap ▸ hj), if_neg (by omega), if_neg (by omega), hpos, he]

end

/-- The term at the boundary. -/
lemma termAt_snapshotIndex (h : l.snapshotIndex ≠ 0) :
    l.termAt l.snapshotIndex = l.snapshotTerm := by
  unfold ReplicationLog.termAt
  rw [if_neg h, if_pos rfl]

namespace WellFormed

/-- `LastIndexTerm` in terms of the other queries. -/
lemma lastIndexTerm_eq (h : WellFormed l) :
    l.lastIndexTerm = (l.lastIndex, l.termAt l.lastIndex) := by
  have hnext := h.next_eq
  dsimp only [ReplicationLog.lastIndexTerm, ReplicationLog.lastIndex]
  by_cases hzero : l.nextIndex - 1 = 0
  · rw [if_pos hzero, hzero]
    rfl
  rw [if_neg hzero]
  by_cases hs : l.nextIndex - 1 = l.snapshotIndex
  · rw [if_pos hs, hs, termAt_snapshotIndex (by omega)]
  · rw [if_neg hs, termAt_of_lt (by omega), if_neg (by omega)]

/-- The check, from the boundary on. -/
lemma matches_eq (h : WellFormed l) {p : ℕ} (hp : l.snapshotIndex ≤ p) (hzero : p ≠ 0) (t : ℕ) :
    l.matches p t = decide (p < l.nextIndex ∧ l.termAt p = t) := by
  have hnext := h.next_eq
  unfold ReplicationLog.matches
  rw [if_neg hzero]
  rcases Nat.eq_or_lt_of_le hp with rfl | hlt
  · rw [if_pos rfl, termAt_snapshotIndex hzero]
    refine decide_eq_decide.mpr ⟨fun ht => ⟨by omega, ht.symm⟩, fun ht => ht.2.symm⟩
  rw [if_neg (by omega), termAt_of_lt hlt]
  by_cases hn : l.nextIndex ≤ p
  · rw [if_pos (.inr hn)]
    exact (decide_eq_false fun ht => absurd ht.1 (by omega)).symm
  · rw [if_neg (by omega), if_neg hn]
    exact decide_eq_decide.mpr ⟨fun ht => ⟨by omega, ht⟩, fun ht => ht.2⟩

/-! ### The compacted log -/

/-- **Compacting to an index of the log** with the term stored there. -/
theorem compact_eq (h : WellFormed l) (hs : l.snapshotIndex < i) (hi : i ≤ l.lastIndex) {term : ℕ}
    (hterm : l.termAt i = term) : l.compact i term = compactTo i term l := by
  have hnext := h.next_eq
  unfold ReplicationLog.lastIndex at hi
  rw [termAt_of_lt hs, if_neg (by omega), ReplicationLog.pos] at hterm
  unfold ReplicationLog.compact compactTo
  rw [if_neg (by omega)]
  dsimp only
  rw [if_neg (show ¬ l.nextIndex ≤ i by omega), if_neg (by omega), Nat.min_eq_left (by omega),
    hterm, ite_id]

/-- A compacted log is well formed. -/
lemma compactTo (h : WellFormed l) (hs : l.snapshotIndex < i) (hi : i ≤ l.lastIndex) {term : ℕ}
    (hterm : l.termAt i = term) : WellFormed (compactTo i term l) := by
  rw [← h.compact_eq hs hi hterm]
  exact h.compact i term

end WellFormed

section queries

variable {term : ℕ} (hs : l.snapshotIndex < i)
include hs

/-- The entries from an index on are still there. -/
lemma drop_pos_compactTo (hj : i < j) :
    (compactTo i term l).entries.drop ((compactTo i term l).pos j) = l.entries.drop (l.pos j) := by
  dsimp only [compactTo, ReplicationLog.pos]
  rw [drop_drop]
  congr 1
  omega

/-- So is each of them. -/
lemma getElem?_pos_compactTo (hj : i < j) :
    (compactTo i term l).entries[(compactTo i term l).pos j]? = l.entries[l.pos j]? := by
  rw [← head?_drop, drop_pos_compactTo hs hj, head?_drop]

/-- `Get` above the new boundary. -/
lemma get_compactTo (hj : i < j) : (compactTo i term l).get j = l.get j := by
  rw [get_of_lt (l := l) (hs.trans hj), get_of_lt (l := compactTo i term l) hj,
    getElem?_pos_compactTo hs hj]
  rfl

/-- `GetFrom` above the new boundary. -/
lemma getFrom_compactTo (hj : i < j) : (compactTo i term l).getFrom j = l.getFrom j := by
  rw [getFrom_of_lt (l := l) (hs.trans hj), getFrom_of_lt (l := compactTo i term l) hj,
    drop_pos_compactTo hs hj]
  rfl

/-- `TermAt` from the new boundary on. -/
lemma termAt_compactTo (hterm : l.termAt i = term) (hj : i ≤ j) :
    (compactTo i term l).termAt j = l.termAt j := by
  rcases Nat.eq_or_lt_of_le hj with rfl | hlt
  · rw [hterm]
    exact termAt_snapshotIndex (l := compactTo i term l) (Nat.ne_of_gt (Nat.zero_lt_of_lt hs))
  · rw [termAt_of_lt (l := l) (hs.trans hlt), termAt_of_lt (l := compactTo i term l) hlt,
      getElem?_pos_compactTo hs hlt]
    rfl

end queries

/-! ### Later writes -/

section writes

variable {t : ℕ}

/-- Compaction commutes with an append. -/
lemma compactTo_concat (e : LogEntry I K V) (hd : i - l.snapshotIndex ≤ l.entries.length) :
    compactTo i t { l with entries := l.entries ++ [e], nextIndex := l.nextIndex + 1 } =
      { compactTo i t l with
        entries := (compactTo i t l).entries ++ [e]
        nextIndex := (compactTo i t l).nextIndex + 1 } := by
  dsimp only [compactTo]
  rw [drop_append_of_le_length hd]

/-- Compaction commutes with a cut above the boundary. -/
lemma compactTo_cut (hs : l.snapshotIndex < i) (hj : i < j) :
    compactTo i t { l with entries := l.entries.take (l.pos j), nextIndex := j } =
      { compactTo i t l with
        entries := (compactTo i t l).entries.take ((compactTo i t l).pos j)
        nextIndex := j } := by
  dsimp only [compactTo, ReplicationLog.pos]
  rw [drop_take]
  congr 2
  omega

/-- **One round of `AppendAfter` commutes with compaction**, unless it contradicts what is
compacted. -/
theorem compactTo_appendEntry (h : WellFormed l) (hs : l.snapshotIndex < i) (hi : i < l.nextIndex)
    {e : LogEntry I K V}
    (hag : l.snapshotIndex < e.index → e.index ≤ i → l.termAt e.index = e.term) :
    (compactTo i t l).appendEntry e = compactTo i t (l.appendEntry e) := by
  have hnext := h.next_eq
  have hsnap : (compactTo i t l).snapshotIndex = i := rfl
  have hnext' : (compactTo i t l).nextIndex = l.nextIndex := rfl
  unfold ReplicationLog.appendEntry
  rw [hsnap, hnext']
  by_cases hold : e.index ≤ l.snapshotIndex
  · rw [if_pos hold, if_pos (show e.index ≤ i by omega)]
  rw [if_neg hold]
  by_cases hle : e.index ≤ i
  · -- the log has the entry already
    have hterm := hag (by omega) hle
    rw [termAt_of_lt (by omega), if_neg (by omega)] at hterm
    rw [if_pos hle, if_pos (by omega), if_pos hterm]
  rw [if_neg hle, getElem?_pos_compactTo hs (Nat.lt_of_not_le hle)]
  split_ifs with hlt hterm heq
  · rfl
  · -- both logs are cut at the entry
    have hcut := compactTo_cut (t := t) hs (Nat.lt_of_not_le hle)
    have hlen : i - l.snapshotIndex ≤ (l.entries.take (l.pos e.index)).length := by
      rw [length_take, ReplicationLog.pos]
      omega
    have hconcat := compactTo_concat (t := t)
      (l := { l with entries := l.entries.take (l.pos e.index), nextIndex := e.index }) e hlen
    rw [hcut] at hconcat
    exact hconcat.symm
  · exact (compactTo_concat e (by omega)).symm
  · rfl

/-- An entry that agrees leaves the terms up to the boundary. -/
lemma appendEntry_keeps (h : WellFormed l) (hi : i < l.nextIndex) {e : LogEntry I K V}
    (hag : l.snapshotIndex < e.index → e.index ≤ i → l.termAt e.index = e.term) :
    i < (l.appendEntry e).nextIndex ∧
      (l.appendEntry e).snapshotIndex = l.snapshotIndex ∧
      ∀ j, l.snapshotIndex < j → j ≤ i → (l.appendEntry e).termAt j = l.termAt j := by
  have hnext := h.next_eq
  unfold ReplicationLog.appendEntry
  by_cases hold : e.index ≤ l.snapshotIndex
  · rw [if_pos hold]
    exact ⟨hi, rfl, fun _ _ _ => rfl⟩
  rw [if_neg hold]
  split_ifs with hlt hterm heq
  · exact ⟨hi, rfl, fun _ _ _ => rfl⟩
  · -- a cut is above `i`
    have hle : i < e.index := by
      by_contra hle
      have hag' := hag (by omega) (by omega)
      rw [termAt_of_lt (by omega), if_neg (by omega)] at hag'
      exact hterm hag'
    refine ⟨by dsimp only; omega, rfl, fun j hj hji => ?_⟩
    refine termAt_congr hj rfl (by omega) (by dsimp only; omega) ?_
    unfold ReplicationLog.pos
    rw [getElem?_append_left (by rw [length_take]; omega),
      getElem?_take_of_lt (by omega)]
  · refine ⟨by dsimp only; omega, rfl, fun j hj hji => ?_⟩
    refine termAt_congr hj rfl (by omega) (by dsimp only; omega) ?_
    exact getElem?_append_left (by unfold ReplicationLog.pos; omega)
  · exact ⟨hi, rfl, fun _ _ _ => rfl⟩

/-- **`AppendAfter` commutes with compaction**, and keeps the term at the boundary. -/
theorem compactTo_appendAfter (h : WellFormed l) (hs : l.snapshotIndex < i) (hi : i < l.nextIndex)
    (p : ℕ) {es : List (LogEntry I K V)}
    (hag : ∀ e ∈ es, l.snapshotIndex < e.index → e.index ≤ i → l.termAt e.index = e.term) :
    ((compactTo i t l).appendAfter p es).1 = compactTo i t (l.appendAfter p es).1 ∧
      i < (l.appendAfter p es).1.nextIndex ∧
      (l.appendAfter p es).1.snapshotIndex = l.snapshotIndex ∧
      (l.appendAfter p es).1.termAt i = l.termAt i := by
  dsimp only [ReplicationLog.appendAfter]
  induction es generalizing l with
  | nil => exact ⟨rfl, hi, rfl, rfl⟩
  | cons e es ih =>
    have hage := hag e mem_cons_self
    obtain ⟨hi', hsnap, hterms⟩ := appendEntry_keeps h hi hage
    rw [foldl_cons, foldl_cons, compactTo_appendEntry h hs hi hage]
    obtain ⟨hfold, hlast, hsnap', hterm⟩ := ih (h.appendEntry e) (hsnap ▸ hs) hi'
      fun e' he' hlow hle => by
        rw [hsnap] at hlow
        rw [hterms e'.index hlow hle]
        exact hag e' (mem_cons_of_mem _ he') hlow hle
    exact ⟨hfold, hlast, hsnap'.trans hsnap, hterm.trans (hterms i hs le_rfl)⟩

end writes

/-- **Compaction is transparent.** For a well-formed log and an index above its snapshot boundary,
up to its last one: compacting to it, with the term stored there, leaves the last index and term,
the entries and terms above it, the term at it and the consistency check from it on unchanged; and
it commutes with any later `Append`, and with any later `AppendAfter` whose entries up to it agree
with the log. -/
theorem compaction_transparent (h : WellFormed l) (hs : l.snapshotIndex < i)
    (hi : i ≤ l.lastIndex) :
    (l.compact i (l.termAt i)).lastIndex = l.lastIndex ∧
      (l.compact i (l.termAt i)).lastIndexTerm = l.lastIndexTerm ∧
      (∀ j, i < j → (l.compact i (l.termAt i)).get j = l.get j ∧
        (l.compact i (l.termAt i)).getFrom j = l.getFrom j ∧
        (l.compact i (l.termAt i)).termAt j = l.termAt j) ∧
      (l.compact i (l.termAt i)).termAt i = l.termAt i ∧
      (∀ p t, i ≤ p → (l.compact i (l.termAt i)).matches p t = l.matches p t) ∧
      (∀ e, (l.compact i (l.termAt i)).append e =
        ((l.append e).1.compact i (l.termAt i), (l.append e).2)) ∧
      ∀ p es, (∀ e ∈ es, l.snapshotIndex < e.index → e.index ≤ i → l.termAt e.index = e.term) →
        (l.compact i (l.termAt i)).appendAfter p es =
          ((l.appendAfter p es).1.compact i (l.termAt i), (l.appendAfter p es).2) := by
  have hnext := h.next_eq
  have hi' : i < l.nextIndex := by
    unfold ReplicationLog.lastIndex at hi
    omega
  have hwf := h.compactTo hs hi rfl
  rw [h.compact_eq hs hi rfl]
  refine ⟨rfl, ?_, fun j hj => ⟨get_compactTo hs hj, getFrom_compactTo hs hj,
    termAt_compactTo hs rfl hj.le⟩, termAt_compactTo hs rfl le_rfl, fun p t hp => ?_, fun e => ?_,
    fun p es hag => ?_⟩
  · rw [hwf.lastIndexTerm_eq, h.lastIndexTerm_eq]
    exact Prod.ext rfl (termAt_compactTo hs rfl hi)
  · rw [hwf.matches_eq hp (by omega), h.matches_eq (by omega) (by omega),
      termAt_compactTo hs rfl hp]
    rfl
  · -- the entry is appended behind the index
    have hterm : (l.append e).1.termAt i = l.termAt i :=
      termAt_congr hs rfl hi' (Nat.lt_succ_of_lt hi')
        (getElem?_append_left (by unfold ReplicationLog.pos; omega))
    rw [(h.append e).compact_eq hs hi'.le hterm]
    refine Prod.ext ?_ rfl
    exact (compactTo_concat _ (by omega)).symm
  · obtain ⟨hfold, hlast, hsnap, hterm⟩ := compactTo_appendAfter (t := l.termAt i) h hs hi' p hag
    rw [(h.appendAfter p es).compact_eq (by omega) (Nat.le_sub_one_of_lt hlast) hterm, ← hfold]
    refine Prod.ext rfl ?_
    exact congrArg (fun l => l.nextIndex - 1) hfold

/-- A log of three entries, each of a term of its own. -/
private def threeTerms : ReplicationLog Unit ℕ ℕ where
  entries := [⟨1, 1, 7, 0, .set, 0, (), .empty⟩, ⟨2, 2, 7, 0, .set, 0, (), .empty⟩,
    ⟨3, 3, 7, 0, .set, 0, (), .empty⟩]
  commitIndex := 3
  nextIndex := 4
  snapshotIndex := 0
  snapshotTerm := 0

/-- Compacted to the second index, the log answers alike, and a message that starts below the
boundary does the same to it. -/
theorem compaction_transparent_threeTerms :
    (threeTerms.compact 2 2).lastIndexTerm = (3, 3) ∧
      (threeTerms.compact 2 2).matches 2 2 = threeTerms.matches 2 2 ∧
      (threeTerms.compact 2 2).appendAfter 1
          [⟨2, 2, 7, 0, .set, 0, (), .empty⟩, ⟨3, 5, 7, 0, .set, 0, (), .empty⟩] =
        ((threeTerms.appendAfter 1
          [⟨2, 2, 7, 0, .set, 0, (), .empty⟩, ⟨3, 5, 7, 0, .set, 0, (), .empty⟩]).1.compact 2 2,
          3) := by
  have hwf : WellFormed threeTerms := by
    refine ⟨rfl, fun p e he => ?_⟩
    rcases p with _ | _ | _ | p
    · cases he; rfl
    · cases he; rfl
    · cases he; rfl
    · cases he
  have hspec := compaction_transparent (i := 2) hwf (by decide) (by decide)
  refine ⟨hspec.2.1, hspec.2.2.2.2.1 2 2 le_rfl, hspec.2.2.2.2.2.2 1 _ fun e he _ hle => ?_⟩
  rcases mem_cons.mp he with rfl | he
  · rfl
  · obtain rfl := mem_singleton.mp he
    exact absurd hle (by decide)

end Replication.Log
