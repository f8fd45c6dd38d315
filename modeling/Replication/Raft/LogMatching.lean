import Replication.Raft.LogMoves
import Replication.Raft.Election

/-!
# Raft · LogMatching: where the entries of a log come from

Every entry of every log was, together with everything before it, in the log of the leader of its
term. Log matching is a consequence (`Ledger.Sourced.take_eq`).

* `fullLog` lemmas — what accepting, installing, compacting and proposing do to the full log of
  a node.
-/

set_option linter.unusedSectionVars false

namespace Replication.Raft

open Storage Log Node Library Function List
open Library.Ledger

variable {N : ℕ} {K V : Type} [DecidableEq K] [Inhabited V] {m : Message N K V}
  {L : Ledger (Fin N) (Entry N K V)} {i : ℕ} {new old : RaftNode N K V} {self : Fin N}
  {a : Action N K V} {n : Fin N} {inp : Input N K V} {t : Trace N K V}

namespace RaftNode

/-! ### The full log under the moves -/

@[simp] lemma follow_fullLog (n : RaftNode N K V) (sender : Fin N) (term : ℕ) :
    (n.follow sender term).fullLog = n.fullLog := by
  rw [fullLog, follow_discarded, follow_log, fullLog]

section fullLog

variable {n : RaftNode N K V} (hr : Represents n.log n.fullLog)
include hr

/-- What is discarded is the full log up to the boundary. -/
lemma discarded_eq : n.discarded = n.fullLog.take n.log.snapshotIndex := by
  have hlen : n.discarded.length = n.log.snapshotIndex := by
    have h₁ : n.fullLog.length = n.discarded.length + n.log.entries.length := length_append
    have h₂ : n.log.entries.length = n.fullLog.length - n.log.snapshotIndex := by
      conv_lhs => rw [hr.entries_eq, length_drop]
    have h₃ := hr.snapshot_le
    omega
  rw [← hlen]
  exact (take_left' rfl).symm

/-- Accepting splices the entries into the full log. -/
lemma fullLog_accept {p : ℕ} {es : List (Entry N K V)}
    (hes : ∀ j e, es[j]? = some e → e.index = p + j + 1) (lc : ℕ) :
    (n.accept p es lc).fullLog = spliceAll LogEntry.term n.log.snapshotIndex n.fullLog p es ∧
      Represents (n.accept p es lc).log (n.accept p es lc).fullLog := by
  obtain ⟨st, a, c, hacc⟩ := n.accept_eq p es lc
  have happ := hr.appendAfter hes
  have hfull : (n.accept p es lc).fullLog =
      spliceAll LogEntry.term n.log.snapshotIndex n.fullLog p es := by
    rw [hacc]
    show n.discarded ++ (n.log.appendAfter p es).1.entries = _
    rw [happ.entries_eq, appendAfter_snapshotIndex, discarded_eq hr,
      ← take_spliceAll LogEntry.term hr.snapshot_le p es, take_append_drop]
  refine ⟨hfull, ?_⟩
  rw [hfull, hacc]
  exact happ.of_commitIndex c

section

variable (hlt : n.log.snapshotIndex < n.applied) (hterm : n.log.termAt n.applied ≠ 0)

include hlt hterm

lemma applied_le_length : n.applied ≤ n.fullLog.length := by
  rw [hr.termAt_eq hlt.le] at hterm
  obtain ⟨e, he, -⟩ := exists_of_termAt_pos (Nat.pos_of_ne_zero hterm)
  exact (entryAt_bounds he).2

lemma compacted_log :
    n.compacted.log =
      { n.log with
        entries := n.fullLog.drop n.applied, snapshotIndex := n.applied,
        snapshotTerm := Library.termAt LogEntry.term n.fullLog n.applied } := by
  dsimp only [compacted]
  rw [hr.termAt_eq hlt.le, hr.compact_eq hlt (applied_le_length hr hlt hterm)]

/-- Compaction leaves the full log. -/
lemma fullLog_compacted :
    n.compacted.fullLog = n.fullLog ∧ Represents n.compacted.log n.compacted.fullLog := by
  have hle := applied_le_length hr hlt hterm
  have hfull : n.compacted.fullLog = n.fullLog := by
    unfold compacted
    show n.discarded ++ n.log.entries.take _ ++ ReplicationLog.entries _ = _
    rw [hr.termAt_eq hlt.le, hr.compact_eq hlt hle]
    show n.discarded ++ n.log.entries.take (n.applied - n.log.snapshotIndex) ++
      n.fullLog.drop n.applied = n.fullLog
    rw [discarded_eq hr, hr.entries_eq, ← take_add, Nat.add_sub_cancel' hlt.le, take_append_drop]
  refine ⟨hfull, ?_⟩
  rw [hfull]
  show Represents (n.log.compact n.applied (n.log.termAt n.applied)) n.fullLog
  rw [hr.termAt_eq hlt.le]
  exact hr.compact hlt hle

end

/-- A proposal is appended to the full log. -/
lemma fullLog_proposed (self : Fin N) (op : ClientOp K V) (ts : ℤ) :
    (n.proposed self op ts).fullLog =
      n.fullLog ++ [n.proposal self op.key op.value op.op ts] ∧
    Represents (n.proposed self op ts).log (n.proposed self op ts).fullLog := by
  have hfull : (n.proposed self op ts).fullLog =
      n.fullLog ++ [n.proposal self op.key op.value op.op ts] := by
    show n.discarded ++ (n.log.entries ++ [_]) = n.discarded ++ n.log.entries ++ [_]
    rw [append_assoc]
    rfl
  refine ⟨hfull, ?_⟩
  rw [hfull]
  have := hr.append (n.proposal self op.key op.value op.op ts)
  rwa [← hr.next_eq] at this

/-- A snapshot above the boundary replaces the full log. -/
lemma fullLog_install {t : ℕ} (snap : K → Option (KVEntry (Fin N) K V)) (inc : List (Entry N K V))
    (hi : n.log.snapshotIndex < i) (hlen : inc.length = i) (ht : t = lastTerm LogEntry.term inc)
    (hidx : ∀ j e, entryAt inc j = some e → e.index = j) :
    (n.install i t snap inc).fullLog = inc ∧
      Represents (n.install i t snap inc).log (n.install i t snap inc).fullLog := by
  have hrep := represents_installSnapshot (l := n.log) hi hlen hidx
  have hfull : (n.install i t snap inc).fullLog = inc := by
    unfold install
    rw [if_pos hi]
    show inc ++ (n.log.installSnapshot i t).entries = inc
    rw [ReplicationLog.installSnapshot, if_neg (not_le.mpr hi)]
    exact append_nil inc
  refine ⟨hfull, ?_⟩
  rw [hfull, ht]
  unfold install
  rw [if_pos hi]
  exact hrep

end fullLog

end RaftNode

open RaftNode

/-! ### Indices in every run -/

/-- The entries of a replication message carry the indices that follow the previous index, or
those of the snapshot. -/
def Message.Indexed (m : Message N K V) : Prop :=
  match m.body with
  | .appendEntries p _ es _ => ∀ j e, es[j]? = some e → e.index = p + j + 1
  | .installSnap i t _ inc => inc.length = i ∧ t = lastTerm LogEntry.term inc ∧
      ∀ j e, entryAt inc j = some e → e.index = j
  | _ => True

/-- Every log is its full log, compacted, and every message is indexed. -/
structure RepInv (s : Cluster N K V) : Prop where
  rep : ∀ n, Represents (s.nodes n).log (s.nodes n).fullLog
  indexed : ∀ m ∈ s.network, m.Indexed

lemma indexed_of_isPlain (h : m.isPlain = true) : m.Indexed := by
  unfold Message.isPlain at h
  unfold Message.Indexed
  split <;> simp_all

/-- A leader sends entries with their indices. -/
lemma indexed_of_mem_sendAppend {self p : Fin N} {n : RaftNode N K V}
    (hr : Represents n.log n.fullLog) (hm : m ∈ sendAppend self n p) : m.Indexed := by
  have hdisc := discarded_eq hr
  have hlen : n.discarded.length = n.log.snapshotIndex := by
    rw [hdisc, length_take_of_le hr.snapshot_le]
  obtain ⟨-, ⟨-, rfl⟩ | ⟨prev, hprev, rfl⟩⟩ := mem_sendAppend self n hm
  · refine ⟨hlen, ?_, fun j e he => ?_⟩
    · show n.log.snapshotTerm = _
      rw [hdisc, lastTerm_take hr.snapshot_le, hr.term_eq]
    · have hj := (entryAt_bounds he).2
      rw [hlen] at hj
      rw [hdisc, entryAt_take hj] at he
      exact hr.index_eq j e he
  · intro j e he
    rw [hr.getFrom_eq (by omega), Nat.add_sub_cancel, getElem?_drop] at he
    exact hr.index_eq (prev + j + 1) e he

section rep

variable {s : Cluster N K V}

/-- What an accepted message does to the full log. -/
lemma RepInv.accept (hR : RepInv s) (hmem : m ∈ s.network) {p pt : ℕ} {es : List (Entry N K V)}
    {lc : ℕ} (hbody : m.body = .appendEntries p pt es lc) :
    (((s.nodes n).follow m.senderID m.term).accept p es lc).fullLog =
        spliceAll LogEntry.term (s.nodes n).log.snapshotIndex (s.nodes n).fullLog p es ∧
      Represents (((s.nodes n).follow m.senderID m.term).accept p es lc).log
        (((s.nodes n).follow m.senderID m.term).accept p es lc).fullLog := by
  have hidx := hR.indexed m hmem
  unfold Message.Indexed at hidx
  rw [hbody] at hidx
  have := fullLog_accept (n := (s.nodes n).follow m.senderID m.term) (by simpa using hR.rep n)
    hidx lc
  rwa [follow_log, follow_fullLog] at this

/-- What a snapshot does to the full log. -/
lemma RepInv.install (hR : RepInv s) (hmem : m ∈ s.network) {i t : ℕ}
    {snap : K → Option (KVEntry (Fin N) K V)} {inc : List (Entry N K V)}
    (hbody : m.body = .installSnap i t snap inc) :
    (((s.nodes n).follow m.senderID m.term).install i t snap inc).fullLog =
        (if (s.nodes n).log.snapshotIndex < i then inc else (s.nodes n).fullLog) ∧
      Represents (((s.nodes n).follow m.senderID m.term).install i t snap inc).log
        (((s.nodes n).follow m.senderID m.term).install i t snap inc).fullLog := by
  have hidx := hR.indexed m hmem
  unfold Message.Indexed at hidx
  rw [hbody] at hidx
  obtain ⟨hlen, ht, hidx⟩ := hidx
  have hrep : Represents ((s.nodes n).follow m.senderID m.term).log
      ((s.nodes n).follow m.senderID m.term).fullLog := by simpa using hR.rep n
  by_cases hs : (s.nodes n).log.snapshotIndex < i
  · rw [if_pos hs]
    exact fullLog_install hrep snap inc (by simpa using hs) hlen ht hidx
  · rw [if_neg hs]
    rw [install_follow_of_not_lt _ _ _ hs]
    exact ⟨follow_fullLog .., hrep⟩

/-- The log of the acting node stands for its full log after a step. -/
lemma RepInv.rep_step (hR : RepInv s) (h : s.input a = some (n, inp)) :
    Represents (s.after n inp).log (s.after n inp).fullLog := by
  have hrep := hR.rep n
  cases s.logMove n inp with
  | still hlog hdisc => rw [fullLog, hlog, hdisc]; exact hrep
  | send k hnew => rw [hnew]; exact hrep
  | propose op ts _ _ hnew => rw [hnew]; exact (fullLog_proposed hrep n op ts).2
  | compact _ hlt hterm hnew => rw [hnew]; exact (fullLog_compacted hrep hlt hterm).2
  | append m p pt es lc hinp hbody _ _ _ hnew =>
    subst hinp
    rw [hnew]
    exact (hR.accept (Cluster.mem_of_input_receive h).1 hbody).2
  | install m i t snap inc hinp hbody _ _ hnew =>
    subst hinp
    rw [hnew]
    exact (hR.install (Cluster.mem_of_input_receive h).1 hbody).2
  | count m k _ _ _ _ _ hnew =>
    obtain ⟨st, ap, c, hadv⟩ := (s.nodes n).advance_acknowledged_eq n m.senderID k
    rw [hnew, hadv]
    exact hrep.of_commitIndex c

/-- Every step keeps logs and messages indexed. -/
lemma repInv_step (hR : RepInv s) (a : Action N K V) : RepInv (s.step a) := by
  cases h : s.input a with
  | none =>
    rw [Cluster.step_of_input_none h]
    exact ⟨hR.rep, fun m hm => hR.indexed m (Cluster.mem_of_mem_remaining hm)⟩
  | some r =>
    obtain ⟨n, inp⟩ := r
    have hrep := hR.rep_step h
    refine ⟨fun v => Cluster.forall_nodes_step h hrep (fun v _ => hR.rep v) v, fun m hm => ?_⟩
    rcases Cluster.mem_network_step h hm with hm | hm
    · exact hR.indexed m hm
    rcases (s.logMove n inp).sent_cases hm with hplain | ⟨-, -, _, rfl⟩ | ⟨p, -, hp, -⟩
    · exact indexed_of_isPlain hplain
    · trivial
    · exact indexed_of_mem_sendAppend hrep hp

lemma repInv_init : RepInv (Cluster.init : Cluster N K V) where
  rep _ := represents_new
  indexed _ hm := absurd hm not_mem_nil

end rep

/-! ### Faithful messages -/

/-- What a replication message says is true of the log of the leader of its term. -/
def Message.Faithful (L : Ledger (Fin N) (Entry N K V)) (m : Message N K V) : Prop :=
  match m.body with
  | .appendEntries p pt es _ =>
    L.elected m.term ≠ none ∧ (∀ j e, es[j]? = some e → (L.tlog m.term)[p + j]? = some e) ∧
      ((p ≤ (L.tlog m.term).length ∧ pt = termAt LogEntry.term (L.tlog m.term) p) ∨
        (0 < p ∧ pt = 0 ∧ es = []))
  | .installSnap i t _ inc =>
    L.elected m.term ≠ none ∧ i ≤ (L.tlog m.term).length ∧ inc = (L.tlog m.term).take i ∧
      t = termAt LogEntry.term (L.tlog m.term) i
  | _ => True

lemma faithful_of_isPlain (h : m.isPlain = true) : m.Faithful L := by
  unfold Message.isPlain at h
  unfold Message.Faithful
  split <;> simp_all

lemma faithful_ackMessage (self target : Fin N) (term : ℕ) (b : Bool) (k : ℕ) :
    (ackMessage self target term b k : Message N K V).Faithful L :=
  trivial

/-- A growing ledger keeps messages faithful. -/
lemma Message.Faithful.mono {L' : Ledger (Fin N) (Entry N K V)} (hx : Extends L L')
    (h : m.Faithful L) : m.Faithful L' := by
  have hget : ∀ {i : ℕ} {e : Entry N K V}, (L.tlog m.term)[i]? = some e →
      (L'.tlog m.term)[i]? = some e := by
    intro i e he
    have hlt : i < (L.tlog m.term).length := (List.getElem?_eq_some_iff.mp he).1
    have := entryAt_prefix_eq (hx.tlog m.term) (i := i + 1) hlt
    rwa [entryAt_succ, entryAt_succ, he] at this
  have hterm : ∀ {i : ℕ}, i ≤ (L.tlog m.term).length →
      termAt LogEntry.term (L'.tlog m.term) i = termAt LogEntry.term (L.tlog m.term) i := by
    intro i hi
    rw [termAt, termAt, entryAt_prefix_eq (hx.tlog m.term) hi]
  unfold Message.Faithful at h ⊢
  split
  · rename_i p pt es lc hb
    rw [hb] at h
    obtain ⟨hel, hes, hp⟩ := h
    refine ⟨hx.elected_ne_none hel, fun j e he => hget (hes j e he), ?_⟩
    rcases hp with ⟨hle, rfl⟩ | hempty
    · exact .inl ⟨hle.trans (hx.tlog m.term).length_le, (hterm hle).symm⟩
    · exact .inr hempty
  · rename_i i t snap inc hb
    rw [hb] at h
    obtain ⟨hel, hle, rfl, rfl⟩ := h
    exact ⟨hx.elected_ne_none hel, hle.trans (hx.tlog m.term).length_le,
      (hx.take_tlog hle).symm, (hterm hle).symm⟩
  · trivial

/-- A leader sends what is true of its log. -/
lemma faithful_of_mem_sendAppend {p : Fin N} {n : RaftNode N K V} (hr : Represents n.log n.fullLog)
    (hel : n.role = .leader → L.elected n.currentTerm ≠ none)
    (hlog : n.role = .leader → n.fullLog = L.tlog n.currentTerm) (hm : m ∈ sendAppend self n p) :
    m.Faithful L := by
  obtain ⟨hl, ⟨-, rfl⟩ | ⟨prev, hprev, rfl⟩⟩ := mem_sendAppend self n hm
  · refine ⟨hel hl, ?_⟩
    show n.log.snapshotIndex ≤ (L.tlog n.currentTerm).length ∧
      n.discarded = (L.tlog n.currentTerm).take n.log.snapshotIndex ∧
      n.log.snapshotTerm = termAt LogEntry.term (L.tlog n.currentTerm) n.log.snapshotIndex
    rw [← hlog hl]
    exact ⟨hr.snapshot_le, discarded_eq hr, hr.term_eq⟩
  · refine ⟨hel hl, ?_⟩
    show (∀ j e, (n.log.getFrom (prev + 1))[j]? = some e →
        (L.tlog n.currentTerm)[prev + j]? = some e) ∧
      ((prev ≤ (L.tlog n.currentTerm).length ∧
        n.log.termAt prev = termAt LogEntry.term (L.tlog n.currentTerm) prev) ∨
        (0 < prev ∧ n.log.termAt prev = 0 ∧ n.log.getFrom (prev + 1) = []))
    rw [← hlog hl, hr.termAt_eq hprev, hr.getFrom_eq (by omega), Nat.add_sub_cancel]
    refine ⟨fun j e he => by rwa [getElem?_drop] at he, ?_⟩
    by_cases hle : prev ≤ n.fullLog.length
    · exact .inl ⟨hle, rfl⟩
    -- the next index lies beyond the log: the message is empty
    refine .inr ⟨by omega, ?_, drop_eq_nil_of_le (by omega)⟩
    cases he : entryAt n.fullLog prev with
    | none => rw [termAt, he]; rfl
    | some => exact absurd (entryAt_bounds he).2 hle

/-! ### The invariant -/

/-- The invariant of the logs. -/
structure LogInv (t : Trace N K V) : Prop where
  coherent : Coherent LogEntry.term t.ledger
  /-- The entries of a leader's log carry their own indices. -/
  indexed : ∀ T i e, entryAt (t.ledger.tlog T) i = some e → e.index = i
  rep : ∀ n, Represents (t.nodes n).log (t.nodes n).fullLog
  /-- Every entry was in the log of its term's leader. -/
  sourced : ∀ n, Sourced LogEntry.term t.ledger (t.nodes n).fullLog
  /-- No entry is from a term its holder has not reached. -/
  term_le : ∀ n i e, entryAt (t.nodes n).fullLog i = some e →
    e.term ≤ (t.nodes n).currentTerm
  /-- A candidate holds earlier terms only. -/
  cand : ∀ n, (t.nodes n).role = .candidate → 0 < (t.nodes n).currentTerm ∧ ∀ i e,
    entryAt (t.nodes n).fullLog i = some e → e.term < (t.nodes n).currentTerm
  /-- The log of a leader is the recorded one. -/
  leader_log : ∀ n, (t.nodes n).role = .leader →
    (t.nodes n).fullLog = t.ledger.tlog (t.nodes n).currentTerm
  faithful : ∀ m ∈ t.network, m.Faithful t.ledger

/-- What node `n` has discarded is in the log of every leader that may still write to it. -/
def Settled (t : Trace N K V) (n : Fin N) : Prop :=
  ∀ W, (t.nodes n).currentTerm ≤ W → t.ledger.elected W ≠ none →
    (t.nodes n).fullLog.take (t.nodes n).log.snapshotIndex <+: t.ledger.tlog W

lemma LogInv.term_pos (hI : LogInv t) {e : Entry N K V}
    (he : entryAt (t.nodes n).fullLog i = some e) : 0 < e.term :=
  hI.coherent.elected_pos _ (hI.sourced n i e he).1

section moves

variable (hI : LogInv t) {m : Message N K V}
include hI

/-- Faithful messages are indexed. -/
lemma LogInv.repInv : RepInv t.cluster where
  rep := hI.rep
  indexed m hm := by
    have hf := hI.faithful m hm
    unfold Message.Faithful at hf
    unfold Message.Indexed
    split
    · rename_i p pt es lc hb
      rw [hb] at hf
      exact fun j e he => hI.indexed m.term (p + j + 1) e (hf.2.1 j e he)
    · rename_i i it snap inc hb
      rw [hb] at hf
      obtain ⟨-, hlen, rfl, rfl⟩ := hf
      refine ⟨length_take_of_le hlen, (lastTerm_take hlen).symm, fun j e he => ?_⟩
      have hj := (entryAt_bounds he).2
      rw [length_take_of_le hlen] at hj
      rw [entryAt_take hj] at he
      exact hI.indexed m.term j e he
    · trivial

/-- An accepted AppendEntries message makes the follower adopt a part of the leader's log. -/
lemma LogInv.append_adopts (hset : Settled t n) (hmem : m ∈ t.network) {p pt : ℕ}
    {es : List (Entry N K V)} {lc : ℕ} (hbody : m.body = .appendEntries p pt es lc)
    (hle : (t.nodes n).currentTerm ≤ m.term) (hpass : (t.nodes n).log.matches p pt = true) :
    t.ledger.elected m.term ≠ none ∧ p + es.length ≤ (t.ledger.tlog m.term).length ∧
      Adopts (t.ledger.tlog m.term) (p + es.length) (t.nodes n).fullLog
        (((t.nodes n).follow m.senderID m.term).accept p es lc).fullLog := by
  have hf := hI.faithful m hmem
  unfold Message.Faithful at hf
  rw [hbody] at hf
  obtain ⟨hel, hes, hprev⟩ := hf
  have hrep := hI.rep n
  -- the consistency check finds the leader's log up to the previous index
  have hstart : p ≤ (t.ledger.tlog m.term).length ∧
      (t.ledger.tlog m.term).take p <+: (t.nodes n).fullLog := by
    rcases hrep.matches_iff.mp hpass with rfl | ⟨-, hlen, hterm⟩
    · exact ⟨Nat.zero_le _, by simp⟩
    rcases Nat.eq_zero_or_pos p with rfl | hpos
    · exact ⟨Nat.zero_le _, by simp⟩
    obtain ⟨e, he⟩ := exists_entryAt hpos hlen
    rw [termAt_of_entryAt he] at hterm
    rcases hprev with ⟨hp, hpt⟩ | ⟨-, hpt, -⟩
    · obtain ⟨e', he'⟩ := exists_entryAt hpos hp
      rw [termAt_of_entryAt he'] at hpt
      refine ⟨hp, ?_⟩
      rw [(hI.coherent.tlog_sourced m.term).take_eq (hI.sourced n) he' he (hterm.trans hpt).symm]
      exact take_prefix _ _
    · exact absurd (hI.term_pos he) (by omega)
  have hlen : p + es.length ≤ (t.ledger.tlog m.term).length := by
    rcases eq_nil_or_concat es with rfl | ⟨es', e, rfl⟩
    · simpa using hstart.1
    · obtain ⟨hlt, -⟩ := List.getElem?_eq_some_iff.mp (hes es'.length e (by simp))
      simp only [concat_eq_append, length_append, length_singleton]
      omega
  refine ⟨hel, hlen, ?_⟩
  rw [(hI.repInv.accept hmem hbody).1]
  refine adopts_spliceAll (fun j a b ha hb hab => ?_) (fun j hj _ => ?_) hes (.inl ⟨rfl, hstart.2⟩)
  · exact (hI.sourced n).take_eq (hI.coherent.tlog_sourced m.term) (i := j + 1) ha hb hab
  · have hsn := hrep.snapshot_le
    rw [take_prefix_eq (hset m.term hle hel) (by rw [length_take_of_le hsn]; exact hj),
      take_take]
    exact take_prefix _ _

/-- An InstallSnapshot message replaces the log by a part of the leader's log, or leaves it. -/
lemma LogInv.install_takes (hmem : m ∈ t.network) {it : ℕ}
    {snap : K → Option (KVEntry (Fin N) K V)} {inc : List (Entry N K V)}
    (hbody : m.body = .installSnap i it snap inc) :
    t.ledger.elected m.term ≠ none ∧ i ≤ (t.ledger.tlog m.term).length ∧
      it = termAt LogEntry.term (t.ledger.tlog m.term) i ∧
      (((t.nodes n).follow m.senderID m.term).install i it snap inc).fullLog =
        if (t.nodes n).log.snapshotIndex < i then (t.ledger.tlog m.term).take i
        else (t.nodes n).fullLog := by
  have hf := hI.faithful m hmem
  unfold Message.Faithful at hf
  rw [hbody] at hf
  obtain ⟨hel, hlen, hinc, hit⟩ := hf
  refine ⟨hel, hlen, hit, ?_⟩
  rw [(hI.repInv.install hmem hbody).1, hinc]

end moves

/-- What a step does to the full log of a node. -/
inductive LogChange (L : Ledger (Fin N) (Entry N K V)) (old new : RaftNode N K V) : Prop
  | same (h : new.fullLog = old.fullLog)
  | own (e : Entry N K V) (hold : old.role = .leader) (hlead : new.role = .leader)
      (hterm : e.term = new.currentTerm) (h : new.fullLog = old.fullLog ++ [e])
  /-- A follower takes over a part of the log of its term's leader. -/
  | taken (k : ℕ) (hrole : new.role = .follower)
      (h : new.fullLog = (L.tlog new.currentTerm).take k)

section

variable (hc : LogChange L old new)

include hc

lemma LogChange.of_candidate (hr : new.role = .candidate) : new.fullLog = old.fullLog := by
  cases hc with
  | same h => exact h
  | own e _ hl => simp [hl] at hr
  | taken k hf => simp [hf] at hr

/-- A leader keeps its log or appends an entry of its term. -/
lemma LogChange.of_leader (hl : new.role = .leader) :
    new.fullLog = old.fullLog ∨
      ∃ e : Entry N K V, e.term = new.currentTerm ∧ new.fullLog = old.fullLog ++ [e] := by
  cases hc with
  | same h => exact .inl h
  | own e _ _ hterm h => exact .inr ⟨e, hterm, h⟩
  | taken k hf => simp [hf] at hl

/-- A new leader starts with the log it had. -/
lemma LogChange.of_win (hl : new.role = .leader) (ho : old.role ≠ .leader) :
    new.fullLog = old.fullLog := by
  cases hc with
  | same h => exact h
  | own e hold => exact absurd hold ho
  | taken k hf => simp [hf] at hl

end

/-- The log of a leader is recorded. -/
lemma fullLog_step_self (h : t.input a = some (n, inp)) (hl : (t.after n inp).role = .leader) :
    (t.after n inp).fullLog = (t.step a).ledger.tlog (t.after n inp).currentTerm := by
  rw [Trace.step_ledger h, (Trace.recordLedger_spec ..).2.1, if_pos hl, update_self]

section acting

variable (hE : ElectInv t) (hI : LogInv t) (hset : Settled t n)
  (h : t.input a = some (n, inp))

include hI hset h

/-- Every step changes the full log of the acting node in one of the three ways. -/
lemma LogInv.logChange : LogChange t.ledger (t.nodes n) (t.after n inp) := by
  cases t.logMove n inp with
  | still hlog hdisc => exact .same (by rw [fullLog, hlog, hdisc, fullLog])
  | send k hnew => rw [hnew]; exact .same rfl
  | propose op ts hinp hl hnew =>
    rw [hnew]
    exact .own _ hl hl rfl (fullLog_proposed (hI.rep n) n op ts).1
  | compact _ hlt hterm hnew => rw [hnew]; exact .same (fullLog_compacted (hI.rep n) hlt hterm).1
  | append m p pt es lc hinp hbody _ hle hpass hnew =>
    subst hinp
    obtain ⟨hel, -, hadopt⟩ := hI.append_adopts hset
      (Cluster.mem_of_input_receive h).1 hbody hle hpass
    rw [hnew]
    rcases hadopt with ⟨hsame, -⟩ | ⟨htake, -⟩
    · exact .same hsame
    · refine .taken (p + es.length) (by rw [accept_role, follow_role]) ?_
      rw [accept_currentTerm, follow_currentTerm _ hle]
      exact htake
  | install m i it snap inc hinp hbody _ hle hnew =>
    subst hinp
    obtain ⟨hel, -, -, hfull⟩ := hI.install_takes (n := n)
      (Cluster.mem_of_input_receive h).1 hbody
    rw [hnew]
    split_ifs at hfull with hs
    · refine .taken i (by rw [install_role, follow_role]) ?_
      rw [install_currentTerm, follow_currentTerm _ hle]
      exact hfull
    · exact .same hfull
  | count m k _ _ _ _ _ hnew =>
    obtain ⟨st, ap, c, hadv⟩ := (t.nodes n).advance_acknowledged_eq n m.senderID k
    rw [hnew, hadv]
    exact .same rfl

include hE

/-- The ledger only grows, and stays coherent. -/
lemma LogInv.ledger_step :
    Extends t.ledger (t.step a).ledger ∧ Coherent LogEntry.term (t.step a).ledger := by
  have hm := t.voteMove n inp
  have hc := hI.logChange hset h
  rw [Trace.step_ledger h]
  unfold Trace.recordLedger
  by_cases hl : (t.after n inp).role = .leader
  · rw [if_pos hl]
    by_cases ho : (t.nodes n).role = .leader
    · -- a leader that stays leader: its log grows by entries of its own term
      rw [if_pos ho, hm.leader_term hl ho]
      have hlog := hI.leader_log n ho
      have hpre : t.ledger.tlog (t.nodes n).currentTerm <+: (t.after n inp).fullLog := by
        rcases hc.of_leader hl with hs | ⟨e, -, hs⟩
        · rw [hs, hlog]
        · rw [hs, hlog]
          exact prefix_append _ _
      refine ⟨(extends_grow hpre).trans (extends_ack ..), (hI.coherent.grow ?_ hpre ?_).ack ..⟩
      · rw [hE.leader_elected n ho]
        exact Option.some_ne_none n
      · intro i e he hi
        have hb := (entryAt_bounds he).2
        rcases hc.of_leader hl with hs | ⟨e', het, hs⟩
        · rw [hs, hlog] at hb
          omega
        rw [hs, hlog, length_append, length_singleton] at hb
        obtain rfl : i = (t.ledger.tlog (t.nodes n).currentTerm).length + 1 := by omega
        rw [hs, hlog, entryAt_append_self] at he
        cases he
        rw [het, hm.leader_term hl ho]
    · -- a new leader: its log holds earlier terms, and the term had no leader
      rw [if_neg ho]
      obtain ⟨m, ⟨-, -, hcand, -, hterm, -⟩, -⟩ := hm.of_leader hl ho
      have hno := hE.not_elected h hl ho
      rw [hc.of_win hl ho]
      refine ⟨(extends_elect hno (hI.coherent.tlog_nil _ hno) n _).trans (extends_ack ..),
        (hI.coherent.elect hno ?_ n (hI.sourced n) ?_).ack ..⟩
      · rw [hterm]
        exact (hI.cand n hcand).1
      · rw [hterm]
        exact (hI.cand n hcand).2
  · rw [if_neg hl]
    exact ⟨extends_ack .., hI.coherent.ack ..⟩

/-- What a step sends is faithful. -/
lemma LogInv.faithful_step (hm : m ∈ t.sent n inp) : m.Faithful (t.step a).ledger := by
  rcases (t.logMove n inp).sent_cases hm with hplain | ⟨-, -, target, rfl⟩ | ⟨p, -, hp, -⟩
  · exact faithful_of_isPlain hplain
  · exact faithful_ackMessage ..
  · refine faithful_of_mem_sendAppend (hI.repInv.rep_step h) (fun hl => ?_) (fullLog_step_self h) hp
    rw [hE.leader_elected_step h hl]
    exact Option.some_ne_none n

omit hE in
lemma LogInv.indexed_step (T i : ℕ) (e : Entry N K V)
    (he : entryAt ((t.step a).ledger.tlog T) i = some e) : e.index = i := by
  rw [Trace.step_ledger h, (Trace.recordLedger_spec ..).2.1] at he
  split_ifs at he with hl
  · by_cases hT : T = (t.after n inp).currentTerm
    · rw [hT, update_self] at he
      exact (hI.repInv.rep_step h).index_eq i e he
    · rw [update_of_ne hT] at he
      exact hI.indexed T i e he
  · exact hI.indexed T i e he

/-- The acting node holds entries of their terms' leaders. -/
lemma LogInv.sourced_step : Sourced LogEntry.term (t.step a).ledger (t.after n inp).fullLog := by
  obtain ⟨hx, hcoh⟩ := hI.ledger_step hE hset h
  cases hI.logChange hset h with
  | same hs => rw [hs]; exact hx.sourced (hI.sourced n)
  | own e _ hl => rw [fullLog_step_self h hl]; exact hcoh.tlog_sourced _
  | taken k _ hs =>
    rw [hs]
    exact hx.sourced ((hI.coherent.tlog_sourced _).initial (List.take_prefix k _))

/-- The acting node holds no entry of a later term. -/
lemma LogInv.term_le_step (i : ℕ) (e : Entry N K V)
    (he : entryAt (t.after n inp).fullLog i = some e) :
    e.term ≤ (t.after n inp).currentTerm := by
  cases hI.logChange hset h with
  | same hs =>
    rw [hs] at he
    exact (hI.term_le n i e he).trans (t.voteMove n inp).term_le
  | own e' _ hl =>
    rw [fullLog_step_self h hl] at he
    exact (hI.ledger_step hE hset h).2.term_le_of_tlog he
  | taken k _ hs =>
    rw [hs] at he
    have hi := (entryAt_bounds he).2
    rw [length_take] at hi
    rw [entryAt_take (by omega)] at he
    exact hI.coherent.term_le_of_tlog he

omit hE in
/-- A candidate holds earlier terms only. -/
lemma LogInv.candidate_step_self (hcand : (t.after n inp).role = .candidate) :
    0 < (t.after n inp).currentTerm ∧ ∀ i e, entryAt (t.after n inp).fullLog i = some e →
      e.term < (t.after n inp).currentTerm := by
  rw [(hI.logChange hset h).of_candidate hcand]
  rcases (t.voteMove n inp).of_candidate hcand with ⟨hold, hterm⟩ | hterm
  · rw [hterm]
    exact hI.cand n hold
  · rw [hterm]
    exact ⟨Nat.succ_pos _, fun i e he => Nat.lt_succ_of_le (hI.term_le n i e he)⟩

end acting

/-- A step leaves the recorded log of another leader. -/
lemma ElectInv.tlog_step_of_ne (hE : ElectInv t) (h : t.input a = some (n, inp))
    {v : Fin N} (hv : v ≠ n) (hl : (t.nodes v).role = .leader) :
    (t.step a).ledger.tlog (t.nodes v).currentTerm = t.ledger.tlog (t.nodes v).currentTerm := by
  rw [Trace.step_ledger h, (Trace.recordLedger_spec ..).2.1]
  split_ifs with hn
  · refine update_of_ne (fun hT => hv ?_) _ _
    have helected := hE.elected_mono h (hE.leader_elected v hl)
    rw [hT, hE.leader_elected_step h hn] at helected
    exact (Option.some.inj helected).symm
  · rfl

/-- **One step keeps the log invariant.** -/
theorem logInv_step (hE : ElectInv t) (hI : LogInv t) (hset : ∀ n, Settled t n)
    (a : Action N K V) : LogInv (t.step a) := by
  cases h : t.input a with
  | none =>
    rw [Trace.step_of_input_none h]
    exact { hI with
      faithful := fun m hm => hI.faithful m (Cluster.mem_of_mem_remaining hm) }
  | some r =>
    obtain ⟨n, inp⟩ := r
    obtain ⟨hx, hcoh⟩ := hI.ledger_step hE (hset n) h
    constructor
    case coherent => exact hcoh
    case indexed => exact hI.indexed_step (hset n) h
    case rep =>
      exact fun v =>
        Trace.forall_nodes_step h (hI.repInv.rep_step h) (fun v _ => hI.rep v) v
    case sourced =>
      exact fun v => Trace.forall_nodes_step h (hI.sourced_step hE (hset n) h)
        (fun v _ => hx.sourced (hI.sourced v)) v
    case term_le =>
      exact fun v => Trace.forall_nodes_step h (hI.term_le_step hE (hset n) h)
        (fun v _ => hI.term_le v) v
    case cand =>
      exact fun v => Trace.forall_nodes_step h (hI.candidate_step_self (hset n) h)
        (fun v _ => hI.cand v) v
    case leader_log =>
      refine fun v => Trace.forall_nodes_step h ?_ (fun v hv hl => ?_) v
      · exact fullLog_step_self h
      · rw [hE.tlog_step_of_ne h hv hl]
        exact hI.leader_log v hl
    case faithful =>
      intro m hmem
      rcases Trace.mem_network_step h hmem with hmem | hmem
      · exact (hI.faithful m hmem).mono hx
      · exact hI.faithful_step hE (hset n) h hmem

lemma logInv_init : LogInv (Trace.init : Trace N K V) where
  coherent := coherent_empty
  indexed T i e he := by
    rw [show (Trace.init : Trace N K V).ledger.tlog T = [] from rfl, entryAt_nil] at he
    cases he
  rep _ := represents_new
  sourced _ := sourced_nil
  term_le n i e he := by
    rw [show ((Trace.init : Trace N K V).nodes n).fullLog = [] from rfl, entryAt_nil] at he
    cases he
  cand _ h := by cases h
  leader_log _ h := by cases h
  faithful _ h := absurd h not_mem_nil

/-! ### Runs without compaction -/

/-- No log has been compacted and no snapshot is in flight. -/
def NoSnapshot (s : Cluster N K V) : Prop :=
  (∀ n, (s.nodes n).log.snapshotIndex = 0) ∧ ∀ m ∈ s.network, ∀ i t snap inc,
    m.body ≠ .installSnap i t snap inc

/-- Without compaction the acting node keeps its boundary, and what it sends are no snapshots. -/
lemma NoSnapshot.react {s : Cluster N K V} (hs : NoSnapshot s)
    (ha : s.NoCompaction a) {n : Fin N} {inp : Input N K V} (h : s.input a = some (n, inp)) :
    (s.after n inp).log.snapshotIndex = 0 ∧
      ∀ m ∈ s.sent n inp, ∀ i t snap inc, m.body ≠ .installSnap i t snap inc := by
  obtain ⟨hzero, hnet⟩ := hs
  have hz : (s.after n inp).log.snapshotIndex = 0 := by
    cases s.logMove n inp with
    | still hlog => rw [hlog]; exact hzero n
    | send _ hnew | propose _ _ _ _ hnew => rw [hnew]; exact hzero n
    | compact hinp =>
      subst hinp
      rw [Cluster.eq_of_input_tick h] at ha
      exact ha.elim
    | append m p pt es lc _ _ _ _ _ hnew =>
      obtain ⟨st, ap, c, hacc⟩ := ((s.nodes n).follow m.senderID m.term).accept_eq p es lc
      rw [hnew, hacc]
      simp [hzero n]
    | install m i t snap inc hinp hbody =>
      subst hinp
      exact absurd hbody (hnet m (Cluster.mem_of_input_receive h).1 i t snap inc)
    | count m k _ _ _ _ _ hnew =>
      obtain ⟨st, ap, c, hadv⟩ := (s.nodes n).advance_acknowledged_eq n m.senderID k
      rw [hnew, hadv]
      exact hzero n
  refine ⟨hz, fun m hm i t snap inc hb => ?_⟩
  rcases (s.logMove n inp).sent_cases hm with hplain | ⟨-, -, target, rfl⟩ | ⟨p, -, hp, -⟩
  · simp [Message.isPlain, hb] at hplain
  · cases hb
  · -- a peer never lags behind a boundary of zero
    obtain ⟨-, ⟨hlag, -⟩ | ⟨prev, -, rfl⟩⟩ := mem_sendAppend n _ hp
    · have := of_decide_eq_true hlag
      omega
    · cases hb

lemma noSnapshot_step {s : Cluster N K V} (ha : s.NoCompaction a)
    (hs : NoSnapshot s) : NoSnapshot (s.step a) := by
  cases h : s.input a with
  | none =>
    rw [Cluster.step_of_input_none h]
    exact ⟨hs.1, fun m hm => hs.2 m (Cluster.mem_of_mem_remaining hm)⟩
  | some r =>
    obtain ⟨n, inp⟩ := r
    obtain ⟨hz, hsent⟩ := hs.react ha h
    refine ⟨fun v => Cluster.forall_nodes_step h hz (fun v _ => hs.1 v) v, fun m hm => ?_⟩
    rcases Cluster.mem_network_step h hm with hm | hm
    · exact hs.2 m hm
    · exact hsent m hm

/-- The invariant holds in every run without compaction. -/
lemma logInv_run {as : List (Action N K V)}
    (h : Along Cluster.step Cluster.NoCompaction Cluster.init as) :
    LogInv (run Trace.step Trace.init as) ∧
      NoSnapshot (run Trace.step Trace.init as).cluster := by
  have hrun := Trace.along_cluster (t := Trace.init) h
  refine (run_invariant (fun t => ElectInv t ∧ LogInv t ∧ NoSnapshot t.cluster) ?_ hrun
    ⟨electInv_init, logInv_init, fun _ => rfl, nofun⟩).2
  rintro t a ha ⟨hE, hI, hS⟩
  have hset : ∀ n, Settled t n := fun n W _ _ => by
    rw [hS.1 n]
    simp
  exact ⟨electInv_step hE a, logInv_step hE hI hset a,
    by rw [Trace.step_cluster]; exact noSnapshot_step ha hS⟩

/-- **Log matching.** In every run without compaction, if two logs hold entries of one term at one
index, they are identical at that index and at every smaller one. -/
theorem log_matching (as : List (Action N K V))
    (h : Along Cluster.step Cluster.NoCompaction Cluster.init as) (n m : Fin N) (i : ℕ)
    (e e' : Entry N K V) (he : ((run Cluster.step Cluster.init as).nodes n).log.get i = some e)
    (he' : ((run Cluster.step Cluster.init as).nodes m).log.get i = some e')
    (hterm : e.term = e'.term) : ∀ j, j ≤ i →
      ((run Cluster.step Cluster.init as).nodes n).log.get j =
        ((run Cluster.step Cluster.init as).nodes m).log.get j := by
  intro j hj
  obtain ⟨hI, hS⟩ := logInv_run h
  rw [Trace.run_init_cluster] at hS
  have hget := fun v k => (hI.rep v).get_eq k
  simp only [Trace.run_init_cluster, hS.1] at hget
  rw [hget] at he he' ⊢
  rw [hget]
  split_ifs at he he' ⊢ with h₀ h₁
  · rfl
  · have hs := hI.sourced
    simp only [Trace.run_init_cluster] at hs
    exact entryAt_eq_of_take_eq ((hs n).take_eq (hs m) he he' hterm) hj

/-- Two writes of the leader, and the message that carries both to one follower. -/
private def twoWrites : List (Action 3 ℕ ℕ) :=
  electFirst ++ [Action.submit 0 (.write 7 70) 5, .submit 0 (.write 8 80) 6, .deliver 3]

/-- Both logs hold the second write at index `2`, and they agree at index `1`. -/
theorem log_matching_replicated : ∃ e e' : Entry 3 ℕ ℕ,
    ((run Cluster.step Cluster.init twoWrites).nodes 0).log.get 2 = some e ∧
    ((run Cluster.step Cluster.init twoWrites).nodes 1).log.get 2 = some e' ∧
    e.term = e'.term ∧
    ((run Cluster.step Cluster.init twoWrites).nodes 0).log.get 1 =
      ((run Cluster.step Cluster.init twoWrites).nodes 1).log.get 1 := by
  refine ⟨⟨2, 1, 8, 80, .set, 6, 0, .empty⟩, ⟨2, 1, 8, 80, .set, 6, 0, .empty⟩, rfl, rfl, rfl, ?_⟩
  exact log_matching twoWrites (by simp [twoWrites, electFirst, Cluster.NoCompaction]) 0 1 2 _ _
    rfl rfl rfl 1 (by decide)

end Replication.Raft
