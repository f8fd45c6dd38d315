import Replication.Simulation.History

/-!
# Simulation · HistoryRows: the numbering after a restore

`internal/simulation/history.go`, `loadRows`. A history is filled from the rows of the database in
the order of their numbers. A row whose event cannot be read is skipped, and so is its number: the
counter ends at the highest number that belongs to an event that can be read.
-/

namespace Replication.Simulation

open List

variable {τ δ σ : Type}

/-- A row of the database. Source: `persistence/db.go` `HistoryRow`. -/
structure HistoryRow (τ : Type) where
  seq : UInt64
  eventJSON : τ
  /-- `none` when no snapshot was captured. -/
  stateJSON : Option τ
  deriving DecidableEq, Repr

variable {rows : List (HistoryRow τ)}

/-- What `json.Unmarshal` makes of a text; `none` is an error. -/
structure Json (τ δ σ : Type) where
  event : τ → Option (Event δ)
  state : τ → Option σ

/-- Whether the event of a row can be decoded. -/
def Json.reads (json : Json τ δ σ) (r : HistoryRow τ) : Bool := (json.event r.eventJSON).isSome

/-- The highest number of a row, `0` if there is none. -/
def highest : List (HistoryRow τ) → ℕ
  | [] => 0
  | r :: rows => max r.seq.toNat (highest rows)

namespace ClusterEventHistory

/-- One row. A snapshot that cannot be read is left out. Source: `history.go` `loadRows`, the body
of the loop. -/
def loadRow (json : Json τ δ σ) (h : ClusterEventHistory δ σ) (r : HistoryRow τ) :
    Option (ClusterEventHistory δ σ) :=
  match json.event r.eventJSON with
  | none => some h -- `continue`, before the counter is raised
  | some evt =>
    h.evict.map fun entries =>
      { h with
        entries := entries ++ [⟨r.seq.toNat, evt, r.stateJSON.bind json.state⟩]
        seq := if h.seq < r.seq.toNat then r.seq.toNat else h.seq }

/-- Fill the buffer with rows. Source: `history.go` `loadRows`. -/
def loadRows (json : Json τ δ σ) :
    ClusterEventHistory δ σ → List (HistoryRow τ) → Option (ClusterEventHistory δ σ)
  | h, [] => some h
  | h, r :: rows => (h.loadRow json r).bind fun h' => h'.loadRows json rows

/-- No event that is appended later gets the number of a row, until the counter has run through its
64 bits. -/
def Avoids (h : ClusterEventHistory δ σ) (rows : List (HistoryRow τ)) : Prop :=
  ∀ (evs : List (Event δ × σ)) (evt : Event δ) (getSnapshot : σ) (h₁ h₂ : ClusterEventHistory δ σ),
    h.appendAll evs = some h₁ → h₁.append evt getSnapshot = some h₂ → h₂.seq < UInt64.size →
      ∀ r ∈ rows, r.seq.toNat ≠ h₂.seq

end ClusterEventHistory

/-- The last row can be read, or is a lone one with the number `0`. -/
def Json.readsLast (json : Json τ δ σ) (rows : List (HistoryRow τ)) : Prop :=
  ∀ r ∈ rows.getLast?, json.reads r = true ∨ r.seq = 0

/-! ### The counter -/

lemma highest_le_iff {n : ℕ} : highest rows ≤ n ↔ ∀ r ∈ rows, r.seq.toNat ≤ n := by
  induction rows with
  | nil => exact iff_of_true (Nat.zero_le n) nofun
  | cons r rows ih => rw [highest, Nat.max_le, ih, forall_mem_cons]

lemma le_highest {r : HistoryRow τ} (hr : r ∈ rows) : r.seq.toNat ≤ highest rows :=
  highest_le_iff.mp (Nat.le_refl _) r hr

lemma highest_filter_le (p : HistoryRow τ → Bool) (rows : List (HistoryRow τ)) :
    highest (rows.filter p) ≤ highest rows :=
  highest_le_iff.mpr fun _ hr => le_highest (mem_filter.mp hr).1

/-- Of rows with increasing numbers the last one has the highest; what is read has it iff the last
row is read. -/
lemma highest_filter_iff {json : Json τ δ σ} (hrows : rows.Pairwise fun r r' => r.seq < r'.seq) :
    highest (rows.filter json.reads) = highest rows ↔ json.readsLast rows := by
  rcases eq_nil_or_concat rows with rfl | ⟨front, last, rfl⟩
  · exact iff_of_true rfl nofun
  rw [concat_eq_append] at hrows ⊢
  have hfront : ∀ r ∈ front, r.seq.toNat < last.seq.toNat := fun r hr =>
    (pairwise_append.mp hrows).2.2 r hr last mem_cons_self
  have hall : highest (front ++ [last]) = last.seq.toNat := by
    refine Nat.le_antisymm (highest_le_iff.mpr fun r hr => ?_)
      (le_highest (mem_append_right _ mem_cons_self))
    rcases mem_append.mp hr with hr | hr
    · exact Nat.le_of_lt (hfront r hr)
    · obtain rfl := mem_singleton.mp hr
      exact Nat.le_refl _
  have hlast : json.readsLast (front ++ [last]) ↔ json.reads last = true ∨ last.seq = 0 := by
    simp [Json.readsLast]
  rw [hlast]
  cases hr : json.reads last with
  | true =>
    refine iff_of_true (Nat.le_antisymm (highest_filter_le _ _) ?_) (.inl rfl)
    rw [hall]
    exact le_highest (mem_filter.mpr ⟨mem_append_right _ mem_cons_self, hr⟩)
  | false =>
    -- what is read stands in front of the last row, and has lower numbers
    have hread : ∀ r ∈ (front ++ [last]).filter json.reads, r.seq.toNat < last.seq.toNat := by
      simpa [hr] using fun r hr' _ => hfront r hr'
    rw [hall]
    constructor
    · intro heq
      by_contra hne
      have hpos : 0 < last.seq.toNat :=
        Nat.pos_of_ne_zero fun hzero => hne (.inr (UInt64.toNat_inj.mp hzero))
      have hle : highest ((front ++ [last]).filter json.reads) ≤ last.seq.toNat - 1 :=
        highest_le_iff.mpr fun r hr => Nat.le_sub_one_of_lt (hread r hr)
      omega
    · rintro (h | hzero)
      · cases h
      · rw [hzero] at hread ⊢
        exact Nat.le_zero.mp (highest_le_iff.mpr fun r hr => Nat.le_of_lt (hread r hr))

section load

variable {json : Json τ δ σ} {h h' : ClusterEventHistory δ σ} {rows : List (HistoryRow τ)}
  {r : HistoryRow τ}

lemma loadRow_of_reads (hr : json.reads r = true) : ∃ evt,
    h.loadRow json r = h.evict.map fun entries =>
      { h with
        entries := entries ++ [⟨r.seq.toNat, evt, r.stateJSON.bind json.state⟩]
        seq := max h.seq r.seq.toNat } := by
  obtain ⟨evt, hevt⟩ := Option.isSome_iff_exists.mp hr
  refine ⟨evt, ?_⟩
  have hmax : (if h.seq < r.seq.toNat then r.seq.toNat else h.seq) = max h.seq r.seq.toNat := by
    split_ifs <;> omega
  simp only [ClusterEventHistory.loadRow, hevt, hmax]

lemma loadRow_of_not_reads (hr : json.reads r = false) : h.loadRow json r = some h := by
  have hevt : json.event r.eventJSON = none :=
    Option.isNone_iff_eq_none.mp (Option.isSome_eq_false_iff.mp hr)
  simp only [ClusterEventHistory.loadRow, hevt]

/-- **The counter after the loop**: only rows that can be read raise it. -/
theorem seq_loadRows (hload : h.loadRows json rows = some h') :
    h'.maxSize = h.maxSize ∧ h'.seq = max h.seq (highest (rows.filter json.reads)) := by
  induction rows generalizing h with
  | nil =>
    obtain rfl := Option.some.inj hload
    exact ⟨rfl, (Nat.max_zero _).symm⟩
  | cons r rows ih =>
    obtain ⟨h₁, hrow, hload⟩ := Option.bind_eq_some_iff.mp hload
    obtain ⟨hsize, hseq⟩ := ih hload
    cases hr : json.reads r with
    | false =>
      rw [loadRow_of_not_reads hr] at hrow
      obtain rfl := Option.some.inj hrow
      rw [filter_cons_of_neg (by simp [hr])]
      exact ⟨hsize, hseq⟩
    | true =>
      obtain ⟨evt, heq⟩ := loadRow_of_reads (h := h) hr
      obtain ⟨entries, -, rfl⟩ := Option.map_eq_some_iff.mp (heq.symm.trans hrow)
      rw [filter_cons_of_pos hr, highest, ← Nat.max_assoc]
      exact ⟨hsize, hseq⟩

/-- **When loading returns**: a buffer of size `0` fails at the first row that can be read. -/
theorem exists_loadRows_iff (hempty : h.maxSize = 0 → h.entries = []) :
    (∃ h', h.loadRows json rows = some h') ↔
      0 < h.maxSize ∨ ∀ r ∈ rows, json.reads r = false := by
  induction rows generalizing h with
  | nil => exact iff_of_true ⟨h, rfl⟩ (.inr nofun)
  | cons r rows ih =>
    rw [ClusterEventHistory.loadRows, forall_mem_cons]
    cases hr : json.reads r with
    | false =>
      rw [loadRow_of_not_reads hr, Option.bind_some, ih hempty]
      simp
    | true =>
      obtain ⟨evt, heq⟩ := loadRow_of_reads (h := h) hr
      rw [heq]
      rcases Nat.eq_zero_or_pos h.maxSize with hzero | hpos
      · have hnone : h.evict = none := by
          simp [ClusterEventHistory.evict, hempty hzero, hzero]
        simp [hnone, hzero]
      · obtain ⟨entries, hentries⟩ := exists_evict hpos
        rw [hentries, Option.map_some, Option.bind_some]
        refine iff_of_true ((ih fun hzero => ?_).mpr (.inl hpos)) (.inl hpos)
        exact absurd hzero (Nat.ne_of_gt hpos)

end load

/-! ### Later events -/

section numbering

variable [Inhabited δ] [Inhabited σ] {h : ClusterEventHistory δ σ} {rows : List (HistoryRow τ)}

/-- **A counter avoids the numbers of all rows** iff none of them is above it: it passes every
number that is above it. -/
theorem avoids_iff (hpos : 0 < h.maxSize) : h.Avoids rows ↔ highest rows ≤ h.seq := by
  rw [highest_le_iff]
  constructor
  · intro havoids r hr
    by_contra hlt
    -- the event after so many others gets the number of the row
    let p : Event δ × σ := (⟨.writeReceived, default⟩, default)
    obtain ⟨h₁, hrun, hsize, hseq⟩ :=
      exists_appendAll hpos (List.replicate (r.seq.toNat - h.seq - 1) p)
    obtain ⟨h₂, happ, -, hseq'⟩ := exists_append (hsize ▸ hpos) p.1 p.2
    have heq : r.seq.toNat = h₂.seq := by
      rw [hseq', hseq, length_replicate]
      omega
    exact havoids _ p.1 p.2 h₁ h₂ hrun happ (heq ▸ r.seq.toNat_lt) r hr heq
  · intro hle evs evt s h₁ h₂ hrun happ _ r hr
    obtain ⟨h₁', hrun', hsize, hseq⟩ := exists_appendAll hpos evs
    obtain rfl := Option.some.inj (hrun.symm.trans hrun')
    obtain ⟨h₂', happ', -, hseq'⟩ := exists_append (hsize ▸ hpos) evt s
    obtain rfl := Option.some.inj (happ.symm.trans happ')
    have := hle r hr
    omega

/-- **Numbering after a restore.** For every buffer size and all rows with increasing numbers,
whichever of them can be read: loading them returns, unless a buffer of size `0` meets a row that
can be read; the counter is then the highest number of all rows iff the last row can be read; and
in a buffer that takes events, exactly then no event that is appended later gets the number of a
row. -/
theorem loadRows_numbering_iff (json : Json τ δ σ) (maxSize : ℕ)
    (hrows : rows.Pairwise fun r r' => r.seq < r'.seq) :
    ((∃ h, (ClusterEventHistory.new maxSize).loadRows json rows = some h) ↔
        0 < maxSize ∨ ∀ r ∈ rows, json.reads r = false) ∧
      ∀ h, (ClusterEventHistory.new maxSize).loadRows json rows = some h →
        (h.seq = highest rows ↔ json.readsLast rows) ∧
          (0 < maxSize → (h.Avoids rows ↔ json.readsLast rows)) := by
  refine ⟨exists_loadRows_iff fun _ => rfl, fun h hload => ?_⟩
  obtain ⟨hsize, hseq⟩ := seq_loadRows hload
  have hcounter : h.seq = highest (rows.filter json.reads) := hseq.trans (Nat.zero_max _)
  have hiff : highest (rows.filter json.reads) = highest rows ↔ json.readsLast rows :=
    highest_filter_iff hrows
  rw [← hcounter] at hiff
  refine ⟨hiff, fun hpos => ?_⟩
  have hle : h.seq ≤ highest rows := hcounter ▸ highest_filter_le json.reads rows
  rw [avoids_iff (hsize ▸ hpos), ← hiff]
  exact ⟨fun h' => Nat.le_antisymm hle h', fun h' => Nat.le_of_eq h'.symm⟩

end numbering

/-- Texts that can be read if they are not empty. -/
private def someText : Json (Option Unit) Unit Unit where
  event text := text.map fun _ => ⟨.writeReceived, ()⟩
  state text := text

/-- The second of three rows cannot be decoded. -/
private def badMiddle : List (HistoryRow (Option Unit)) :=
  [⟨3, some (), none⟩, ⟨5, none, none⟩, ⟨7, some (), some none⟩]

/-- The numbers go on after the last row. -/
theorem loadRows_numbering_badMiddle :
    ∃ h, (ClusterEventHistory.new 1).loadRows someText badMiddle = some h ∧
      h.seq = 7 ∧ h.Avoids badMiddle := by
  have hrows : badMiddle.Pairwise fun r r' => r.seq < r'.seq := by decide
  have hnumbers := loadRows_numbering_iff someText 1 hrows
  have hlast : someText.readsLast badMiddle := by
    rintro r ⟨⟩
    exact .inl rfl
  obtain ⟨h, hload⟩ := hnumbers.1.mpr (.inl (by decide))
  obtain ⟨hseq, havoids⟩ := hnumbers.2 h hload
  exact ⟨h, hload, hseq.mpr hlast, (havoids (by decide)).mpr hlast⟩

/-- The last row cannot be decoded. -/
private def badLast : List (HistoryRow (Option Unit)) := [⟨1, some (), none⟩, ⟨2, none, none⟩]

/-- The second of two rows cannot be read: the counter is `1` in a buffer of the size that the code
uses, and the next event gets the number `2` again. -/
theorem loadRows_badLast :
    badLast.Pairwise (fun r r' => r.seq < r'.seq) ∧ highest badLast = 2 ∧
      ∃ h h', (ClusterEventHistory.new historyMaxSize).loadRows someText badLast = some h ∧
        h.seq = 1 ∧ h.append ⟨.leaderElected, ()⟩ () = some h' ∧ h'.seq = 2 :=
  ⟨by decide, rfl, _, _, rfl, rfl, rfl, rfl⟩

end Replication.Simulation
