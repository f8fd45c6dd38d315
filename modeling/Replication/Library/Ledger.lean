import Replication.Library.TermLog
import Mathlib.Data.Fintype.Card

/-!
# Leader logs, acknowledgements and leader completeness

The abstract account of a replicated log with at most one leader per term. A `Ledger` records,
for every term, the leader elected in it, the log it was elected with (`base`) and the log it has
by now (`tlog`), and for every node and term how long a part of the leader's log the node has
acknowledged (`acked`). It names no program: `ι` is the type of nodes and `E` that of entries.

* `Coherent term L` — a leader's log extends the log it was elected with by entries of its own
  term, and earlier entries have smaller terms.

The ledger grows by three operations (`elect`, `grow`, `ack`), each with its coherence lemma, and
`Extends` is the order in which it grows.
-/

set_option linter.unusedSectionVars false

namespace Replication.Library

open Function List

/-- What has happened to the leaders and acknowledgements of each term. -/
structure Ledger (ι E : Type*) where
  elected : ℕ → Option ι
  /-- The log the leader of a term was elected with. -/
  base : ℕ → List E
  /-- The log of the leader of a term, as long as it has become so far. -/
  tlog : ℕ → List E
  /-- How long a part of the leader's log of a term a node has acknowledged. -/
  acked : ι → ℕ → ℕ

namespace Ledger

variable {ι E : Type*}

/-- Nothing has happened yet. -/
def empty : Ledger ι E where
  elected _ := none
  base _ := []
  tlog _ := []
  acked _ _ := 0

variable (term : E → ℕ)

/-- Every entry of `ℓ` was, with everything before it, in the log of its term's leader. -/
def Sourced (L : Ledger ι E) (ℓ : List E) : Prop :=
  ∀ i e, entryAt ℓ i = some e → L.elected (term e) ≠ none ∧ ℓ.take i <+: L.tlog (term e)

/-- A leader's log is the log it was elected with and entries of its own term. -/
structure Coherent (L : Ledger ι E) : Prop where
  elected_pos : ∀ T, L.elected T ≠ none → 0 < T
  /-- A leader only appends to the log it was elected with. -/
  base_pre : ∀ T, L.base T <+: L.tlog T
  /-- The log of a newly elected leader holds earlier terms only. -/
  base_lt : ∀ T i e, entryAt (L.base T) i = some e → term e < T
  own : ∀ T i e, entryAt (L.tlog T) i = some e → (L.base T).length < i → term e = T
  base_sourced : ∀ T, Sourced term L (L.base T)
  tlog_nil : ∀ T, L.elected T = none → L.tlog T = []

variable {term} {L L' : Ledger ι E} {ℓ ℓ' : List E}

/-! ### Sourced logs -/

/-- The empty log is sourced. -/
lemma sourced_nil : Sourced term L [] := by
  intro i e h
  simp [entryAt_nil] at h

/-- The empty ledger is coherent. -/
lemma coherent_empty : Coherent term (empty : Ledger ι E) where
  elected_pos _ h := absurd rfl h
  base_pre _ := prefix_rfl
  base_lt _ i e h := by
    simp [empty, entryAt_nil] at h
  own _ i e h := by
    simp [empty, entryAt_nil] at h
  base_sourced _ := sourced_nil
  tlog_nil _ _ := rfl

section

variable (h : Sourced term L ℓ)

include h

/-- The beginnings of a sourced log are sourced. -/
lemma Sourced.initial (hp : ℓ' <+: ℓ) : Sourced term L ℓ' := by
  intro i e he
  have hi := (entryAt_bounds he).2
  obtain ⟨h₁, h₂⟩ := h i e (by rw [entryAt_prefix_eq hp hi]; exact he)
  rw [take_prefix_eq hp hi] at h₂
  exact ⟨h₁, h₂⟩

/-- **Log matching**: two sourced logs with entries of one term at one index agree up to it. -/
theorem Sourced.take_eq (h' : Sourced term L ℓ') {i : ℕ} {e e' : E} (he : entryAt ℓ i = some e)
    (he' : entryAt ℓ' i = some e') (ht : term e = term e') : ℓ.take i = ℓ'.take i := by
  have hp := (h i e he).2
  have hp' := (h' i e' he').2
  rw [← ht] at hp'
  have hlen : (ℓ.take i).length = (ℓ'.take i).length := by
    rw [length_take_of_le (entryAt_bounds he).2, length_take_of_le (entryAt_bounds he').2]
  exact (prefix_of_prefix_length_le hp hp' hlen.le).eq_of_length hlen

/-- A sourced log begins the log of the leader of its last term. -/
lemma Sourced.prefix_tlog {T : ℕ} (hT : 0 < T) (hlast : lastTerm term ℓ = T) : ℓ <+: L.tlog T := by
  have hpos : 0 < termAt term ℓ ℓ.length := by
    rw [lastTerm] at hlast
    omega
  obtain ⟨e, he, hte⟩ := exists_of_termAt_pos hpos
  have hp := (h _ e he).2
  rw [take_length, hte, ← lastTerm, hlast] at hp
  exact hp

end

namespace Coherent

variable (hL : Coherent term L)
include hL

/-- The log of a leader is sourced. -/
lemma tlog_sourced (T : ℕ) : Sourced term L (L.tlog T) := by
  intro i e he
  by_cases hi : i ≤ (L.base T).length
  · rw [entryAt_prefix_eq (hL.base_pre T) hi] at he
    rw [take_prefix_eq (hL.base_pre T) hi]
    exact hL.base_sourced T i e he
  · have ht : term e = T := hL.own T i e he (by omega)
    refine ⟨fun hnone => ?_, ?_⟩
    · rw [ht] at hnone
      simp [hL.tlog_nil T hnone, entryAt_nil] at he
    · rw [ht]
      exact take_prefix _ _

section

variable (h : Sourced term L ℓ)

include h

/-- An entry of term `T` in a sourced log lies above the log its leader was elected with, so
that log begins the sourced one. -/
lemma base_prefix_of_entryAt {i T : ℕ} {e : E} (he : entryAt ℓ i = some e) (ht : term e = T) :
    L.base T <+: ℓ := by
  subst ht
  have hp := (h i e he).2
  have hi := (entryAt_bounds he).2
  have hlt : (L.base (term e)).length < i := by
    by_contra hge
    have he' : entryAt (L.base (term e)) i = some e := by
      rw [← entryAt_prefix_eq (hL.base_pre _) (by omega)]
      exact entryAt_of_isPrefix_take hp le_rfl he
    exact lt_irrefl _ (hL.base_lt _ i e he')
  refine List.IsPrefix.trans ?_ (List.take_prefix i ℓ)
  refine prefix_of_prefix_length_le (hL.base_pre _) hp ?_
  rw [length_take_of_le hi]
  exact hlt.le

/-- Terms do not decrease along a sourced log. -/
lemma term_le_term {i j : ℕ} {e e' : E} (hij : i ≤ j) (he : entryAt ℓ i = some e)
    (he' : entryAt ℓ j = some e') : term e ≤ term e' := by
  have hp := (h j e' he').2
  have het : entryAt (L.tlog (term e')) i = some e := entryAt_of_isPrefix_take hp hij he
  by_cases hi : i ≤ (L.base (term e')).length
  · rw [entryAt_prefix_eq (hL.base_pre _) hi] at het
    exact (hL.base_lt _ i e het).le
  · exact (hL.own _ i e het (by omega)).le

/-- The last term is the greatest. -/
lemma term_le_lastTerm {i : ℕ} {e : E} (he : entryAt ℓ i = some e) : term e ≤ lastTerm term ℓ := by
  have hb := entryAt_bounds he
  obtain ⟨e', he'⟩ := exists_entryAt (ℓ := ℓ) (i := ℓ.length) (by omega) le_rfl
  rw [lastTerm, termAt_of_entryAt he']
  exact hL.term_le_term h hb.2 he he'

end

/-- The log of a leader has no later terms than its own. -/
lemma term_le_of_tlog {T i : ℕ} {e : E} (he : entryAt (L.tlog T) i = some e) : term e ≤ T := by
  by_cases hi : i ≤ (L.base T).length
  · rw [entryAt_prefix_eq (hL.base_pre T) hi] at he
    exact (hL.base_lt T i e he).le
  · exact (hL.own T i e he (by omega)).le

end Coherent

/-! ### Up-to-date logs, votes and choices -/

variable (term)

/-- `a` is at least as up to date as `b`: a later last term, or the same one and no shorter. -/
def UpToDate (a b : List E) : Prop :=
  lastTerm term b < lastTerm term a ∨ (lastTerm term a = lastTerm term b ∧ b.length ≤ a.length)

/-- What `v` has acknowledged in any term begins `ℓ`, unless a later leader of a term up to `t`
was elected without it. -/
def Kept (L : Ledger ι E) (v : ι) (ℓ : List E) (t : ℕ) : Prop :=
  ∀ T i, i ≤ L.acked v T → (L.tlog T).take i <+: ℓ ∨
    ∃ W, T < W ∧ W ≤ t ∧ L.elected W ≠ none ∧ ¬ (L.tlog T).take i <+: L.base W

/-- The evidence of a vote of `v` in term `U` for a candidate whose log is `ℓ`: a log of `v` no
more up to date than `ℓ`, in which the acknowledged parts of earlier terms were kept. -/
def VoteSound (L : Ledger ι E) (v : ι) (U : ℕ) (ℓ : List E) : Prop :=
  ∃ vlog, Sourced term L vlog ∧ UpToDate term ℓ vlog ∧
    ∀ T, T < U → ∀ i, i ≤ L.acked v T → (L.tlog T).take i <+: vlog ∨
      ∃ W, T < W ∧ W < U ∧ L.elected W ≠ none ∧ ¬ (L.tlog T).take i <+: L.base W

/-- Every leader was elected by a majority of sound votes. -/
def Voted [Fintype ι] (L : Ledger ι E) : Prop :=
  ∀ U, L.elected U ≠ none →
    ∃ Q : Finset ι, Fintype.card ι < 2 * Q.card ∧ ∀ v ∈ Q, VoteSound term L v U (L.base U)

/-- Index `i` of the leader's log of term `T` holds an entry of that term which a majority has
acknowledged in that term. -/
def Chosen [Fintype ι] (L : Ledger ι E) (T i : ℕ) : Prop :=
  ∃ e, entryAt (L.tlog T) i = some e ∧ term e = T ∧
    ∃ Q : Finset ι, Fintype.card ι < 2 * Q.card ∧ ∀ v ∈ Q, i ≤ L.acked v T

variable {term}

/-- Two majorities share a node. -/
lemma exists_mem_of_majorities [Fintype ι] [DecidableEq ι] {A B : Finset ι}
    (hA : Fintype.card ι < 2 * A.card) (hB : Fintype.card ι < 2 * B.card) : ∃ v, v ∈ A ∧ v ∈ B := by
  have hcard : (Finset.univ : Finset ι).card < A.card + B.card := by
    rw [Finset.card_univ]
    omega
  obtain ⟨v, hv⟩ := Finset.inter_nonempty_of_card_lt_card_add_card (Finset.subset_univ A)
    (Finset.subset_univ B) hcard
  exact ⟨v, Finset.mem_inter.mp hv⟩

section chosen

variable [Fintype ι] [DecidableEq ι] {T U i j : ℕ}

/-- What is chosen is in the log of the leader. -/
lemma Chosen.le_length (h : Chosen term L T i) : i ≤ (L.tlog T).length := by
  obtain ⟨e, he, -⟩ := h
  exact (entryAt_bounds he).2

/-- The term of a choice has a leader. -/
lemma Chosen.elected (h : Chosen term L T i) (hL : Coherent term L) : L.elected T ≠ none := by
  obtain ⟨e, he, rfl, -⟩ := h
  exact (hL.tlog_sourced _ i e he).1

/-- **Leader completeness.** A chosen part of a leader's log is in the log every later leader is
elected with. -/
theorem Chosen.prefix_base (hc : Chosen term L T i) (hL : Coherent term L) (hV : Voted term L) :
    ∀ U, T < U → L.elected U ≠ none → (L.tlog T).take i <+: L.base U := by
  intro U
  induction U using Nat.strong_induction_on with
  | _ U ih =>
    intro hTU hU
    obtain ⟨e, he, ht, Q, hQ, hack⟩ := hc
    obtain ⟨Q', hQ', hvote⟩ := hV U hU
    -- the electing and the acknowledging majority share a node `v`
    obtain ⟨v, hvQ', hvQ⟩ := exists_mem_of_majorities hQ' hQ
    obtain ⟨vlog, hvs, hup, hkept⟩ := hvote v hvQ'
    have hpre : (L.tlog T).take i <+: vlog := by
      rcases hkept T hTU i (hack v hvQ) with h | ⟨W, hTW, hWU, hW, hno⟩
      · exact h
      · exact absurd (ih W hWU hTW hW) hno
    have hev : entryAt vlog i = some e := entryAt_of_isPrefix_take hpre le_rfl he
    have hlen := (entryAt_bounds hev).2
    have hTv : T ≤ lastTerm term vlog := ht ▸ hL.term_le_lastTerm hvs hev
    have hT : 0 < T := by
      rw [← ht]
      exact hL.elected_pos _ (hvs i e hev).1
    -- the new leader's log ends in a term `t` between `T` and `U`
    have hTt : T ≤ lastTerm term (L.base U) := by
      rcases hup with h | h <;> omega
    have hpos : 0 < termAt term (L.base U) (L.base U).length := by
      rw [lastTerm] at hTt
      omega
    obtain ⟨e', he', ht'⟩ := exists_of_termAt_pos hpos
    rw [← lastTerm] at ht'
    rcases hTt.lt_or_eq with hlt | heq
    · -- a later term: its leader had the part already, and its log begins the new one
      have hbU := hL.base_lt U _ e' he'
      have hel := (hL.base_sourced U _ e' he').1
      rw [ht'] at hbU hel
      exact (ih _ hbU hlt hel).trans (hL.base_prefix_of_entryAt (hL.base_sourced U) he' ht')
    · -- the same term: both logs begin the log of the leader of `T`, and the new one is longer
      have hle : vlog.length ≤ (L.base U).length := by
        rcases hup with h | h <;> omega
      have hbT : L.base U <+: L.tlog T := (hL.base_sourced U).prefix_tlog hT heq.symm
      rw [take_prefix_eq hbT (hlen.trans hle)]
      exact take_prefix _ _

/-- Later leaders have what is chosen. -/
lemma Chosen.prefix_tlog (hc : Chosen term L T i) (hL : Coherent term L) (hV : Voted term L)
    (hTU : T ≤ U) (hU : L.elected U ≠ none) : (L.tlog T).take i <+: L.tlog U := by
  rcases hTU.lt_or_eq with hlt | rfl
  · exact (hc.prefix_base hL hV U hlt hU).trans (hL.base_pre U)
  · exact take_prefix _ _

end chosen

/-! ### How the ledger grows -/

/-- The later ledger `L'` has everything that `L` has recorded. -/
structure Extends (L L' : Ledger ι E) : Prop where
  elected : ∀ T n, L.elected T = some n → L'.elected T = some n
  /-- The log a leader was elected with does not change. -/
  base : ∀ T, L.elected T ≠ none → L'.base T = L.base T
  tlog : ∀ T, L.tlog T <+: L'.tlog T
  acked : ∀ v T, L.acked v T ≤ L'.acked v T

namespace Extends

/-- A ledger extends itself. -/
lemma refl (L : Ledger ι E) : Extends L L where
  elected _ _ h := h
  base _ _ := rfl
  tlog _ := prefix_rfl
  acked _ _ := le_rfl

variable (h : Extends L L')
include h

/-- Terms keep their leaders. -/
lemma elected_ne_none {T : ℕ} (hT : L.elected T ≠ none) : L'.elected T ≠ none := by
  obtain ⟨n, hn⟩ := Option.ne_none_iff_exists'.mp hT
  rw [h.elected T n hn]
  exact Option.some_ne_none n

/-- Extensions compose. -/
lemma trans {L'' : Ledger ι E} (h' : Extends L' L'') : Extends L L'' where
  elected T n hn := h'.elected T n (h.elected T n hn)
  base T hT := (h'.base T (h.elected_ne_none hT)).trans (h.base T hT)
  tlog T := (h.tlog T).trans (h'.tlog T)
  acked v T := (h.acked v T).trans (h'.acked v T)

/-- What a leader had in its log stays. -/
lemma take_tlog {T i : ℕ} (hi : i ≤ (L.tlog T).length) : (L'.tlog T).take i = (L.tlog T).take i :=
  take_prefix_eq (h.tlog T) hi

/-- A sourced log stays sourced, -/
lemma sourced (hs : Sourced term L ℓ) : Sourced term L' ℓ := by
  intro i e he
  obtain ⟨h₁, h₂⟩ := hs i e he
  exact ⟨h.elected_ne_none h₁, h₂.trans (h.tlog _)⟩

/-- a choice stays chosen, -/
lemma chosen [Fintype ι] {T i : ℕ} (hc : Chosen term L T i) : Chosen term L' T i := by
  obtain ⟨e, he, ht, Q, hQ, hack⟩ := hc
  refine ⟨e, ?_, ht, Q, hQ, fun v hv => (hack v hv).trans (h.acked v T)⟩
  rw [entryAt_prefix_eq (h.tlog T) (entryAt_bounds he).2]
  exact he

/-- what was kept is kept, if new acknowledgements are of parts of the log, -/
lemma kept {v : ι} {t t' : ℕ} (hk : Kept L v ℓ t)
    (hle : ∀ T, L.acked v T ≤ (L.tlog T).length) (htt : t ≤ t')
    (hnew : ∀ T i, i ≤ L'.acked v T → i ≤ L.acked v T ∨ (L'.tlog T).take i <+: ℓ) :
    Kept L' v ℓ t' := by
  intro T i hi
  rcases hnew T i hi with hi | hp
  · rw [h.take_tlog (hi.trans (hle T))]
    rcases hk T i hi with hp | ⟨W, hTW, hWt, hW, hno⟩
    · exact .inl hp
    · refine .inr ⟨W, hTW, hWt.trans htt, h.elected_ne_none hW, ?_⟩
      rwa [h.base W hW]
  · exact .inl hp

/-- and a vote stays sound, if its voter acknowledges nothing in earlier terms. -/
lemma voteSound {v : ι} {U : ℕ} (hack : ∀ T, T < U → L'.acked v T = L.acked v T)
    (hle : ∀ T, L.acked v T ≤ (L.tlog T).length) (hv : VoteSound term L v U ℓ) :
    VoteSound term L' v U ℓ := by
  obtain ⟨vlog, hs, hup, hk⟩ := hv
  refine ⟨vlog, h.sourced hs, hup, fun T hTU i hi => ?_⟩
  rw [hack T hTU] at hi
  rw [h.take_tlog (hi.trans (hle T))]
  rcases hk T hTU i hi with hp | ⟨W, hTW, hWU, hW, hno⟩
  · exact .inl hp
  · refine .inr ⟨W, hTW, hWU, h.elected_ne_none hW, ?_⟩
    rwa [h.base W hW]

end Extends

/-- Adopting a part of the log of a leader of term `W` keeps what was acknowledged: what is cut
off, that leader was elected without. -/
lemma Kept.adopt {v : ι} {t W k : ℕ} (hL : Coherent term L) (hk : Kept L v ℓ t)
    (htW : t ≤ W) (hW : L.elected W ≠ none) (hle : ∀ T, L.acked v T ≠ 0 → T ≤ t)
    (ha : Adopts (L.tlog W) k ℓ ℓ') : Kept L v ℓ' W := by
  intro T i hi
  rcases hk T i hi with hp | ⟨W', hTW', hW't, hW', hno⟩
  · rcases ha.prefix_or_not_prefix hp with h | h
    · exact .inl h
    · right
      have hi0 : i ≠ 0 := by
        rintro rfl
        exact h (by simp)
      have hTW : T < W := by
        refine lt_of_le_of_ne ((hle T (by omega)).trans htW) ?_
        rintro rfl
        exact h (List.take_prefix _ _)
      exact ⟨W, hTW, le_rfl, hW, fun hb => h (hb.trans (hL.base_pre W))⟩
  · exact .inr ⟨W', hTW', hW't.trans htW, hW', hno⟩

/-- A longer log keeps as much. -/
lemma Kept.of_extension {v : ι} {t : ℕ} (hk : Kept L v ℓ t) (hp : ℓ <+: ℓ') : Kept L v ℓ' t := by
  intro T i hi
  exact (hk T i hi).imp_left fun h => h.trans hp

/-! ### Committed parts -/

section backed

variable [Fintype ι] [DecidableEq ι]

variable (term) in
/-- The first `c` entries of `ℓ` lie in a part that was chosen in a term up to `t`. -/
def Backed (L : Ledger ι E) (ℓ : List E) (t c : ℕ) : Prop :=
  c = 0 ∨ ∃ T j, T ≤ t ∧ Chosen term L T j ∧ c ≤ j ∧ (L.tlog T).take c <+: ℓ

variable {t t' c c' W : ℕ}

/-- Nothing is always backed. -/
lemma backed_zero : Backed term L ℓ t 0 := .inl rfl

section

variable (h : Backed term L ℓ t c)

include h

/-- A backed part is in the log. -/
lemma Backed.le_length : c ≤ ℓ.length := by
  rcases h with rfl | ⟨T, j, -, hc, hcj, hp⟩
  · exact Nat.zero_le _
  · have := hp.length_le
    rwa [length_take_of_le (hcj.trans hc.le_length)] at this

/-- So is a shorter one backed. -/
lemma Backed.of_le (hc : c' ≤ c) : Backed term L ℓ t c' := by
  rcases h with rfl | ⟨T, j, hT, hch, hcj, hp⟩
  · exact .inl (by omega)
  · refine .inr ⟨T, j, hT, hch, hc.trans hcj, List.IsPrefix.trans ?_ hp⟩
    exact take_prefix_take_left hc

/-- Later leaders have the backed part. -/
lemma Backed.prefix_tlog (hL : Coherent term L) (hV : Voted term L) (hW : t ≤ W)
    (hel : L.elected W ≠ none) : ℓ.take c <+: L.tlog W := by
  rcases h with rfl | ⟨T, j, hT, hch, hcj, hp⟩
  · simp
  · have hlen : c ≤ (L.tlog T).length := hcj.trans hch.le_length
    rw [(prefix_take_iff hlen).mp hp]
    exact (take_prefix_take_left hcj).trans (hch.prefix_tlog hL hV (hT.trans hW) hel)

/-- **Backed parts agree.** The shorter of two backed parts begins the longer one. -/
theorem Backed.take_eq (h' : Backed term L ℓ' t' c') (hL : Coherent term L) (hV : Voted term L)
    (hcc : c ≤ c') : ℓ.take c = ℓ'.take c := by
  rcases h with rfl | ⟨T, j, hT, hch, hcj, hp⟩
  · simp
  rcases h' with rfl | ⟨T', j', hT', hch', hcj', hp'⟩
  · obtain rfl : c = 0 := by omega
    simp
  have hlen : c ≤ (L.tlog T).length := hcj.trans hch.le_length
  have hlen' : c' ≤ (L.tlog T').length := hcj'.trans hch'.le_length
  have hq' : (L.tlog T').take c <+: ℓ' := (take_prefix_take_left hcc).trans hp'
  rw [(prefix_take_iff hlen).mp hp, (prefix_take_iff (hcc.trans hlen')).mp hq']
  -- the leader of the later of the two terms has both parts
  rcases Nat.le_total T T' with hle | hle
  · have := hch.prefix_tlog hL hV hle (hch'.elected hL)
    exact ((prefix_take_iff hlen).mp ((take_prefix_take_left hcj).trans this)).symm
  · have := hch'.prefix_tlog hL hV hle (hch.elected hL)
    exact (prefix_take_iff (hcc.trans hlen')).mp
      ((take_prefix_take_left (hcc.trans hcj')).trans this)

/-- A longer log has it as well. -/
lemma Backed.of_extension (hp : ℓ <+: ℓ') : Backed term L ℓ' t c := by
  rcases h with rfl | ⟨T, j, hT, hch, hcj, hq⟩
  · exact .inl rfl
  · exact .inr ⟨T, j, hT, hch, hcj, hq.trans hp⟩

/-- A backed part stays backed when the ledger grows. -/
lemma Backed.mono (hx : Extends L L') (htt : t ≤ t') : Backed term L' ℓ t' c := by
  rcases h with rfl | ⟨T, j, hT, hch, hcj, hp⟩
  · exact .inl rfl
  · refine .inr ⟨T, j, hT.trans htt, hx.chosen hch, hcj, ?_⟩
    rwa [hx.take_tlog (hcj.trans hch.le_length)]

/-- Adopting a part of a later leader's log keeps the backed part. -/
lemma Backed.adopt {k : ℕ} (hL : Coherent term L) (hV : Voted term L) (hW : t ≤ W)
    (hel : L.elected W ≠ none) (ha : Adopts (L.tlog W) k ℓ ℓ') :
    Backed term L ℓ' W c ∧ ℓ'.take c = ℓ.take c := by
  have hc := h.le_length
  have hpre : ℓ.take c <+: ℓ' := by
    rcases ha.prefix_or_not_prefix (List.take_prefix c ℓ) with hp | hp
    · exact hp
    · exact absurd (h.prefix_tlog hL hV hW hel) hp
  refine ⟨?_, (prefix_take_iff hc).mp hpre⟩
  rcases h with rfl | ⟨T, j, hT, hch, hcj, hp⟩
  · exact .inl rfl
  · refine .inr ⟨T, j, hT.trans hW, hch, hcj, ?_⟩
    rw [← (prefix_take_iff (hcj.trans hch.le_length)).mp hp]
    exact hpre

/-- A beginning of a later leader's log is backed as far. -/
lemma Backed.of_tlog {k : ℕ} (hL : Coherent term L) (hV : Voted term L) (hW : t ≤ W)
    (hel : L.elected W ≠ none) (hp : ℓ' <+: L.tlog W) (hk : k ≤ c) (hlen : k ≤ ℓ'.length) :
    Backed term L ℓ' W k := by
  rcases h with rfl | ⟨T, j, hT, hch, hcj, -⟩
  · exact .inl (by omega)
  refine .inr ⟨T, j, hT.trans hW, hch, hk.trans hcj, ?_⟩
  have hpre := (take_prefix_take_left (hk.trans hcj)).trans
    (hch.prefix_tlog hL hV (hT.trans hW) hel)
  refine prefix_of_prefix_length_le hpre hp ?_
  rw [length_take]
  omega

end

end backed

/-! ### The three operations -/

section operations

variable [DecidableEq ι]

/-- Record the election of `n` in term `T` with log `ℓ`. -/
def elect (L : Ledger ι E) (T : ℕ) (n : ι) (ℓ : List E) : Ledger ι E :=
  { L with
    elected := Function.update L.elected T (some n)
    base := Function.update L.base T ℓ
    tlog := Function.update L.tlog T ℓ }

/-- Record that the log of the leader of `T` has become `ℓ`. -/
def grow (L : Ledger ι E) (T : ℕ) (ℓ : List E) : Ledger ι E :=
  { L with tlog := Function.update L.tlog T ℓ }

/-- Record that `v` has acknowledged the first `k` entries of the leader's log of `T`. -/
def ack (L : Ledger ι E) (v : ι) (T k : ℕ) : Ledger ι E :=
  { L with
    acked := fun v' T' => if v' = v ∧ T' = T then max (L.acked v T) k else L.acked v' T' }

/-- An election in a term without leader extends the ledger, -/
lemma extends_elect {T : ℕ} (hT : L.elected T = none) (hnil : L.tlog T = []) (n : ι)
    (ℓ : List E) : Extends L (L.elect T n ℓ) where
  elected T' n' h := by
    have hne : T' ≠ T := by
      rintro rfl
      simp [hT] at h
    simpa [elect, update_of_ne hne] using h
  base T' h := by
    have hne : T' ≠ T := by
      rintro rfl
      exact h hT
    simp [elect, update_of_ne hne]
  tlog T' := by
    by_cases hne : T' = T
    · subst hne
      simp [elect, hnil]
    · simp [elect, update_of_ne hne]
  acked _ _ := le_rfl

/-- a longer log of a leader extends it, -/
lemma extends_grow {T : ℕ} (hp : L.tlog T <+: ℓ) : Extends L (L.grow T ℓ) where
  elected _ _ h := h
  base _ _ := rfl
  tlog T' := by
    by_cases hne : T' = T
    · subst hne
      simpa [grow] using hp
    · simp [grow, update_of_ne hne]
  acked _ _ := le_rfl

/-- and so does an acknowledgement. -/
lemma extends_ack (v : ι) (T k : ℕ) : Extends L (L.ack v T k) where
  elected _ _ h := h
  base _ _ := rfl
  tlog _ := prefix_rfl
  acked v' T' := by
    dsimp only [ack]
    split_ifs with h
    · obtain ⟨rfl, rfl⟩ := h
      exact le_max_left _ _
    · exact le_rfl

/-- Electing a new leader with a sourced log of earlier terms keeps the ledger coherent. -/
lemma Coherent.elect (hL : Coherent term L) {T : ℕ} (hT : L.elected T = none) (hpos : 0 < T)
    (n : ι) (hs : Sourced term L ℓ) (hlt : ∀ i e, entryAt ℓ i = some e → term e < T) :
    Coherent term (L.elect T n ℓ) := by
  have hext : Extends L (L.elect T n ℓ) := extends_elect hT (hL.tlog_nil T hT) n ℓ
  constructor
  · intro T' h
    by_cases hne : T' = T
    · exact hne ▸ hpos
    · exact hL.elected_pos T' (by simpa [Ledger.elect, update_of_ne hne] using h)
  · intro T'
    by_cases hne : T' = T
    · subst hne
      simp [Ledger.elect]
    · simpa [Ledger.elect, update_of_ne hne] using hL.base_pre T'
  · intro T' i e he
    by_cases hne : T' = T
    · subst hne
      exact hlt i e (by simpa [Ledger.elect] using he)
    · exact hL.base_lt T' i e (by simpa [Ledger.elect, update_of_ne hne] using he)
  · intro T' i e he hi
    by_cases hne : T' = T
    · subst hne
      simp only [Ledger.elect, update_self] at he hi
      exact absurd (entryAt_bounds he).2 (by omega)
    · simp only [Ledger.elect, update_of_ne hne] at he hi
      exact hL.own T' i e he hi
  · intro T'
    apply hext.sourced
    by_cases hne : T' = T
    · subst hne
      simpa [Ledger.elect] using hs
    · simpa [Ledger.elect, update_of_ne hne] using hL.base_sourced T'
  · intro T' h
    have hne : T' ≠ T := by
      rintro rfl
      simp [Ledger.elect] at h
    simp only [Ledger.elect, update_of_ne hne] at h ⊢
    exact hL.tlog_nil T' h

/-- Appending entries of the leader's term keeps the ledger coherent. -/
lemma Coherent.grow (hL : Coherent term L) {T : ℕ} (hT : L.elected T ≠ none) (hp : L.tlog T <+: ℓ)
    (hown : ∀ i e, entryAt ℓ i = some e → (L.tlog T).length < i → term e = T) :
    Coherent term (L.grow T ℓ) := by
  have hext : Extends L (L.grow T ℓ) := extends_grow hp
  constructor
  · exact hL.elected_pos
  · intro T'
    exact (hL.base_pre T').trans (hext.tlog T')
  · exact hL.base_lt
  · intro T' i e he hi
    by_cases hne : T' = T
    · subst hne
      simp only [Ledger.grow, update_self] at he
      by_cases hle : i ≤ (L.tlog T').length
      · rw [entryAt_prefix_eq hp hle] at he
        exact hL.own T' i e he hi
      · exact hown i e he (by omega)
    · simp only [Ledger.grow, update_of_ne hne] at he
      exact hL.own T' i e he hi
  · intro T'
    exact hext.sourced (hL.base_sourced T')
  · intro T' h
    have hne : T' ≠ T := by
      rintro rfl
      exact hT h
    simp only [Ledger.grow, update_of_ne hne]
    exact hL.tlog_nil T' h

/-- Acknowledgements do not matter for it. -/
lemma Coherent.ack (hL : Coherent term L) (v : ι) (T k : ℕ) : Coherent term (L.ack v T k) :=
  ⟨hL.elected_pos, hL.base_pre, hL.base_lt, hL.own, hL.base_sourced, hL.tlog_nil⟩

end operations

end Ledger

end Replication.Library
