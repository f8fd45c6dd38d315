import Replication.Raft.Acks

/-!
# Raft · Commit: leader completeness and the committed prefix

What is committed was chosen by a majority and stays where it is, in every run whose deliveries
are verified (`Cluster.safe`).

* `CommitInv` — the committed part of every log is backed by a choice of some term
  (`Ledger.Backed`), every node has applied exactly what it has committed, and commit indices and
  snapshots in flight are backed as well. `SafeInv` puts the invariants together.
* Stability of the committed part — a node never loses or changes an index it has committed;
  after `tailOverwrite` it has.
* Match indices — a leader and a peer of its term hold the same entries up to the match index.
-/

set_option linter.unusedSectionVars false

namespace Replication.Raft

open Storage Log Node Library List
open Library.Ledger

variable {N : ℕ} {K V : Type} [DecidableEq K] [Inhabited V] {L : Ledger (Fin N) (Entry N K V)}
  {i : ℕ} {m : Message N K V}

namespace RaftNode

/-! ### Committing and applying -/

/-- The node holds entry `e` at index `i`: in its log, or below its snapshot boundary. -/
def Holds (n : RaftNode N K V) (i : ℕ) (e : Entry N K V) : Prop :=
  n.log.get i = some e ∨ (i ≤ n.log.snapshotIndex ∧ entryAt n.discarded i = some e)

section apply

variable {n : RaftNode N K V}

section

variable (hr : Represents n.log n.fullLog)

include hr

/-- A node holds what its full log has. -/
lemma holds_iff {e : Entry N K V} : n.Holds i e ↔ entryAt n.fullLog i = some e := by
  unfold Holds
  rw [hr.get_eq, discarded_eq hr]
  by_cases hi : i ≤ n.log.snapshotIndex
  · rw [if_pos hi, entryAt_take hi]
    simp [hi]
  · rw [if_neg hi]
    simp [hi]

/-- Applying inside the log applies the next entries, one for each round. -/
lemma applyRounds_spec (hs : n.log.snapshotIndex ≤ n.applied) {k : ℕ}
    (hk : n.applied + k ≤ n.fullLog.length) :
    applyRounds k n =
      { n with
        store := n.store.applyLog ((n.fullLog.drop n.applied).take k)
        applied := n.applied + k } := by
  induction k generalizing n with
  | zero => rfl
  | succ k ih =>
    have hlt : n.applied < n.fullLog.length := by omega
    have hget : n.log.get (n.applied + 1) = some n.fullLog[n.applied] := by
      rw [hr.get_eq, if_neg (by omega), entryAt_succ, getElem?_eq_getElem hlt]
    unfold applyRounds
    rw [hget]
    dsimp only
    rw [ih (n := { n with
      store := n.store.set n.fullLog[n.applied].toKV, applied := n.applied + 1 }) hr
      (Nat.le_succ_of_le hs) (by
        show n.applied + 1 + k ≤ n.fullLog.length
        omega)]
    have hdrop : (n.fullLog.drop n.applied).take (k + 1) =
        n.fullLog[n.applied] :: (n.fullLog.drop (n.applied + 1)).take k := by
      rw [drop_eq_getElem_cons hlt, take_succ_cons]
    rw [hdrop]
    show ({ n with
      store := (n.store.set n.fullLog[n.applied].toKV).applyLog
        ((n.fullLog.drop (n.applied + 1)).take k), applied := n.applied + 1 + k } :
        RaftNode N K V) = _
    rw [Nat.add_right_comm]
    rfl

/-- Committing up to an index inside the log raises the commit index and applies the entries in
between. -/
lemma commitTo_spec (hap : n.applied = n.log.commitIndex)
    (hs : n.log.snapshotIndex ≤ n.log.commitIndex) {idx : ℕ} (hidx : idx ≤ n.fullLog.length) :
    n.commitTo idx =
      { n with
        log := { n.log with commitIndex := max n.log.commitIndex idx }
        store := n.store.applyLog ((n.fullLog.drop n.applied).take (idx - n.applied))
        applied := max n.applied idx } := by
  unfold commitTo applyCommitted ReplicationLog.setCommitIndex
  split_ifs with hlt
  · rw [applyRounds_spec (n := { n with log := { n.log with commitIndex := idx } })
      (hr.of_commitIndex idx) (hap ▸ hs) (by
        show n.applied + (idx - n.applied) ≤ n.fullLog.length
        omega)]
    show ({ n with
        log := { n.log with commitIndex := idx }
        store := n.store.applyLog ((n.fullLog.drop n.applied).take (idx - n.applied))
        applied := n.applied + (idx - n.applied) } : RaftNode N K V) = _
    rw [Nat.add_sub_cancel' (by omega), Nat.max_eq_right hlt.le, Nat.max_eq_right (by omega)]
  · have hle : idx ≤ n.applied := by omega
    show applyRounds (idx - n.applied) n = _
    rw [Nat.sub_eq_zero_of_le hle, Nat.max_eq_left (not_lt.mp hlt), Nat.max_eq_left hle]
    rfl

end

/-- Accepting an AppendEntries message commits up to the leader's commit index, or to the end of
the log, and applies the entries in between. -/
lemma accept_spec {p : ℕ} {es : List (Entry N K V)} {lc : ℕ}
    (hr : Represents (n.accept p es lc).log (n.accept p es lc).fullLog)
    (hap : n.applied = n.log.commitIndex) (hs : n.log.snapshotIndex ≤ n.log.commitIndex) :
    n.accept p es lc =
      { n with
        log := { (n.log.appendAfter p es).1 with
          commitIndex := max n.log.commitIndex (min lc (n.accept p es lc).fullLog.length) }
        store := n.store.applyLog (((n.accept p es lc).fullLog.drop n.applied).take
          (min lc (n.accept p es lc).fullLog.length - n.applied))
        applied := max n.applied (min lc (n.accept p es lc).fullLog.length) } := by
  let n₂ : RaftNode N K V := { n with log := (n.log.appendAfter p es).1 }
  obtain ⟨st, ap, c, heq⟩ := n.accept_eq p es lc
  have hfull : (n.accept p es lc).fullLog = n₂.fullLog := by
    rw [heq]
    rfl
  have hr₂ : Represents n₂.log n₂.fullLog := by
    rw [hfull, heq] at hr
    exact hr.of_commitIndex n₂.log.commitIndex
  have hcom : n₂.log.commitIndex = n.log.commitIndex := appendAfter_commitIndex n.log p es
  have hsn : n₂.log.snapshotIndex = n.log.snapshotIndex := appendAfter_snapshotIndex n.log p es
  rw [hfull]
  unfold accept
  rw [show (n.log.appendAfter p es).1.lastIndex = n₂.fullLog.length from hr₂.lastIndex_eq]
  split_ifs with hlt
  · refine (commitTo_spec (n := n₂) hr₂ (hap.trans hcom.symm) (by omega)
      (min_le_right _ _)).trans ?_
    rw [hcom]
  · rw [appendAfter_commitIndex] at hlt
    rw [Nat.max_eq_left (by omega), Nat.max_eq_left (by omega), Nat.sub_eq_zero_of_le (by omega),
      ← hcom]
    rfl

end apply

end RaftNode

/-! ### The invariant -/

/-- The index a replication message declares committed. -/
def Message.commits (m : Message N K V) : ℕ :=
  match m.body with
  | .appendEntries _ _ _ lc => lc
  | .installSnap i _ _ _ => i
  | _ => 0

lemma commits_of_isPlain (h : m.isPlain = true) : m.commits = 0 := by
  unfold Message.isPlain at h
  unfold Message.commits
  split <;> simp_all

/-- The invariant of commit indices. -/
structure CommitInv (t : Trace N K V) : Prop where
  /-- A node has applied exactly what it has committed. -/
  applied_eq : ∀ n, (t.nodes n).applied = (t.nodes n).log.commitIndex
  boundary_le : ∀ n, (t.nodes n).log.snapshotIndex ≤ (t.nodes n).log.commitIndex
  /-- The committed part of a log is backed. -/
  backed : ∀ n, Backed LogEntry.term t.ledger (t.nodes n).fullLog
    (t.nodes n).currentTerm (t.nodes n).log.commitIndex
  /-- What a message declares committed is backed. -/
  declared : ∀ m ∈ t.network,
    Backed LogEntry.term t.ledger (t.ledger.tlog m.term) m.term m.commits

/-- The invariants of a safe run. -/
structure SafeInv (t : Trace N K V) : Prop where
  elect : ElectInv t
  log : LogInv t
  ack : AckInv t
  commit : CommitInv t

/-- What a node has discarded is in the logs of later leaders. -/
lemma SafeInv.settled {t : Trace N K V} (hS : SafeInv t) (n : Fin N) : Settled t n :=
  fun _ hle hel => ((hS.commit.backed n).of_le (hS.commit.boundary_le n)).prefix_tlog
    hS.log.coherent hS.ack.ledger_voted hle hel

/-- What a step leaves of the commit state of the acting node: the applied and the commit index
agree, the boundary is committed, the committed part is backed and extends the old one. -/
structure CommitStep (L : Ledger (Fin N) (Entry N K V)) (old new : RaftNode N K V) : Prop where
  applied_eq : new.applied = new.log.commitIndex
  boundary_le : new.log.snapshotIndex ≤ new.log.commitIndex
  backed : Backed LogEntry.term L new.fullLog new.currentTerm new.log.commitIndex
  mono : old.log.commitIndex ≤ new.log.commitIndex
  stable : new.fullLog.take old.log.commitIndex = old.fullLog.take old.log.commitIndex

section step

variable {t : Trace N K V} {a : Action N K V} {n : Fin N} {inp : Input N K V}

open RaftNode

/-- A step that commits nothing. -/
lemma SafeInv.commitStep_of_eq (hS : SafeInv t) (hx : Extends t.ledger L) {new : RaftNode N K V}
    (happ : new.applied = (t.nodes n).applied)
    (hcom : new.log.commitIndex = (t.nodes n).log.commitIndex)
    (hsn : new.log.snapshotIndex ≤ (t.nodes n).log.commitIndex)
    (hterm : (t.nodes n).currentTerm ≤ new.currentTerm)
    (hpre : (t.nodes n).fullLog <+: new.fullLog) : CommitStep L (t.nodes n) new where
  applied_eq := by rw [happ, hcom, hS.commit.applied_eq n]
  boundary_le := hcom ▸ hsn
  backed := by
    rw [hcom]
    exact ((hS.commit.backed n).of_extension hpre).mono hx hterm
  mono := hcom.ge
  stable := take_prefix_eq hpre (hS.commit.backed n).le_length

/-- An index of a leader's own term that a majority holds is chosen. -/
lemma chosen_of_majority {t' : Trace N K V} (hI : LogInv t') (hA : AckInv t') {n : Fin N}
    (hl : (t'.nodes n).role = .leader) (hpos : 0 < i) (hlen : i ≤ (t'.nodes n).fullLog.length)
    (hterm : termAt LogEntry.term (t'.nodes n).fullLog i =
      (t'.nodes n).currentTerm) (hmaj : majority n ≤ (t'.nodes n).replicaCount n i) :
    Chosen LogEntry.term t'.ledger (t'.nodes n).currentTerm i := by
  obtain ⟨e, he⟩ := exists_entryAt hpos hlen
  refine ⟨e, hI.leader_log n hl ▸ he, (termAt_of_entryAt he).symm.trans hterm, ?_⟩
  -- the leader and the peers whose match index reaches `i`
  let f : Fin N → Bool := fun p => decide (i ≤ (t'.nodes n).matchIndex p)
  refine ⟨insert n ((peers n).filter f).toFinset, ?_, fun v hv => ?_⟩
  · have hcard : (insert n ((peers n).filter f).toFinset).card =
        (t'.nodes n).replicaCount n i := by
      rw [Finset.card_insert_of_notMem (by simp), toFinset_card_of_nodup ((peers_nodup n).filter f),
        RaftNode.replicaCount, countP_eq_length_filter, Nat.add_comm]
    rw [hcard, Fintype.card_fin]
    exact lt_two_mul_of_majority_le hmaj
  · rcases Finset.mem_insert.mp hv with rfl | hv
    · exact hlen.trans (hA.leader_acked v hl)
    · obtain ⟨hp, hf⟩ := mem_filter.mp (mem_toFinset.mp hv)
      exact (of_decide_eq_true hf).trans (hA.match_le n hl v (mem_peers.mp hp))

section

variable (hS : SafeInv t)

include hS

/-- The commit state of a node that adopts a part of its leader's log and commits what the message
declares. -/
lemma SafeInv.commitStep_adopt (hx : Extends t.ledger L) (hmem : m ∈ t.network)
    (hle : (t.nodes n).currentTerm ≤ m.term) {k : ℕ} {new : RaftNode N K V}
    (hel : t.ledger.elected m.term ≠ none)
    (hadopt : Adopts (t.ledger.tlog m.term) k (t.nodes n).fullLog new.fullLog)
    (hpre : new.fullLog <+: t.ledger.tlog m.term) (hterm : new.currentTerm = m.term)
    (hcom : new.log.commitIndex = max (t.nodes n).log.commitIndex i) (hi : i ≤ m.commits)
    (hlen : i ≤ new.fullLog.length) (happ : new.applied = new.log.commitIndex)
    (hsn : new.log.snapshotIndex ≤ new.log.commitIndex) : CommitStep L (t.nodes n) new := by
  have hcoh := hS.log.coherent
  have hvot := hS.ack.ledger_voted
  obtain ⟨hback, hstable⟩ := (hS.commit.backed n).adopt hcoh hvot hle hel hadopt
  refine ⟨happ, hsn, ?_, ?_, hstable⟩
  · rw [hterm, hcom]
    refine Backed.mono ?_ hx le_rfl
    rcases Nat.le_total i (t.nodes n).log.commitIndex with h | h
    · rw [Nat.max_eq_left h]
      exact hback
    · rw [Nat.max_eq_right h]
      exact (hS.commit.declared m hmem).of_tlog hcoh hvot le_rfl hel hpre hi hlen
  · rw [hcom]
    exact le_max_left _ _

/-- The commit state after an accepted AppendEntries message. -/
lemma SafeInv.commitStep_append (hx : Extends t.ledger L) (hmem : m ∈ t.network) {p pt : ℕ}
    {es : List (Entry N K V)} {lc : ℕ} (hbody : m.body = .appendEntries p pt es lc)
    (hle : (t.nodes n).currentTerm ≤ m.term) (hpass : (t.nodes n).log.matches p pt = true)
    (hver : (t.nodes n).verified m = true) :
    CommitStep L (t.nodes n) (((t.nodes n).follow m.senderID m.term).accept p es lc) := by
  obtain ⟨hel, hk, hadopt⟩ := hS.log.append_adopts (hS.settled n) hmem hbody hle hpass
  have hpre := hS.log.append_begins (hS.settled n) hmem hbody hle hpass hver
  have hspec := accept_spec (hS.log.repInv.accept hmem hbody).2
    (by simpa using hS.commit.applied_eq n) (by simpa using hS.commit.boundary_le n)
  generalize hX : ((t.nodes n).follow m.senderID m.term).accept p es lc = X at *
  have hcom : X.log.commitIndex =
      max (t.nodes n).log.commitIndex (min lc X.fullLog.length) := by
    have := congrArg (fun x : RaftNode N K V => x.log.commitIndex) hspec
    simpa using this
  refine hS.commitStep_adopt hx hmem hle hel hadopt hpre ?_ hcom ?_ (min_le_right _ _) ?_ ?_
  · rw [← hX, accept_currentTerm, follow_currentTerm _ hle]
  · simp [Message.commits, hbody]
  · have := congrArg RaftNode.applied hspec
    rw [hcom, ← hS.commit.applied_eq n]
    simpa using this
  · have := congrArg (fun x : RaftNode N K V => x.log.snapshotIndex) hspec
    dsimp only at this
    rw [appendAfter_snapshotIndex, follow_log] at this
    rw [hcom, this]
    exact le_max_of_le_left (hS.commit.boundary_le n)

/-- The commit state after an InstallSnapshot message. -/
lemma SafeInv.commitStep_install (hx : Extends t.ledger L) (hmem : m ∈ t.network) {it : ℕ}
    {snap : K → Option (KVEntry (Fin N) K V)} {inc : List (Entry N K V)}
    (hbody : m.body = .installSnap i it snap inc) (hle : (t.nodes n).currentTerm ≤ m.term)
    (hver : (t.nodes n).verified m = true) :
    CommitStep L (t.nodes n) (((t.nodes n).follow m.senderID m.term).install i it snap inc) := by
  obtain ⟨hel, hi, -, hfull⟩ := hS.log.install_takes (n := n) hmem hbody
  obtain ⟨k, hadopt, hpre⟩ := hS.log.install_adopts (hS.settled n) hmem hbody hle hver
  have happ := hS.commit.applied_eq n
  by_cases hs : (t.nodes n).log.snapshotIndex < i
  · have hcom : (((t.nodes n).follow m.senderID m.term).install i it snap
        inc).log.commitIndex = max (t.nodes n).log.commitIndex i := by
      unfold RaftNode.install ReplicationLog.installSnapshot
      simp only [follow_log, if_pos hs, if_neg (not_le.mpr hs)]
      split_ifs <;> omega
    refine hS.commitStep_adopt hx hmem hle hel hadopt hpre ?_ hcom ?_ ?_ ?_ ?_
    · rw [install_currentTerm, follow_currentTerm _ hle]
    · simp [Message.commits, hbody]
    · rw [hfull, if_pos hs, length_take_of_le hi]
    · rw [hcom]
      unfold RaftNode.install
      simp only [follow_log, follow_applied, if_pos hs]
      split_ifs <;> omega
    · rw [hcom]
      unfold RaftNode.install ReplicationLog.installSnapshot
      simp only [follow_log, if_pos hs, if_neg (not_le.mpr hs)]
      exact le_max_right _ _
  · rw [install_follow_of_not_lt _ _ _ hs]
    refine hS.commitStep_of_eq hx (follow_applied ..) (by simp) ?_ ?_ (by simp)
    · rw [follow_log]
      exact hS.commit.boundary_le n
    · rw [follow_currentTerm _ hle]
      exact hle

section

variable (h : t.input a = some (n, inp)) (hsafe : t.safe a = true)

include h hsafe

/-- The commit state after a leader has committed an index. -/
lemma SafeInv.commitStep_count (hl : (t.nodes n).role = .leader) {sender : Fin N}
    {k idx : ℕ} (hnew : t.after n inp = ((t.nodes n).acknowledged sender k).commitTo idx)
    (hlt : (t.nodes n).log.commitIndex < idx)
    (hlast : idx ≤ (t.nodes n).log.lastIndex)
    (hterm : (t.nodes n).log.termAt idx = (t.nodes n).currentTerm)
    (hmaj : majority n ≤ ((t.nodes n).acknowledged sender k).replicaCount n idx) :
    CommitStep (t.step a).ledger (t.nodes n)
      (((t.nodes n).acknowledged sender k).commitTo idx) := by
  have hrep := hS.log.rep n
  have hsn := hS.commit.boundary_le n
  -- the match indices the leader counts are acknowledged after the step
  have hI' := logInv_step hS.elect hS.log hS.settled a
  have hA' := ackInv_step hS.elect hS.log hS.ack hS.settled hsafe
  have hself := Trace.step_nodes_self h
  have hlen : idx ≤ (t.nodes n).fullLog.length := hrep.lastIndex_eq ▸ hlast
  have hspec := commitTo_spec (n := (t.nodes n).acknowledged sender k) hrep
    (hS.commit.applied_eq n) hsn hlen
  rw [hnew, hspec] at hself
  rw [hspec]
  have hterm' : termAt LogEntry.term (t.nodes n).fullLog idx = (t.nodes n).currentTerm := by
    rw [← hrep.termAt_eq (hsn.trans hlt.le)]
    exact hterm
  have hch : Chosen LogEntry.term (t.step a).ledger (t.nodes n).currentTerm idx := by
    have := chosen_of_majority hI' hA' (n := n) (i := idx)
    rw [hself] at this
    exact this hl (by omega) hlen hterm' hmaj
  have htlog : (t.nodes n).fullLog = (t.step a).ledger.tlog (t.nodes n).currentTerm := by
    have := hI'.leader_log n
    rw [hself] at this
    exact this hl
  constructor
  · show max (t.nodes n).applied idx = max (t.nodes n).log.commitIndex idx
    rw [hS.commit.applied_eq n]
  · exact hsn.trans (le_max_left _ _)
  · refine .inr ⟨(t.nodes n).currentTerm, idx, le_rfl, hch, max_le hlt.le le_rfl, ?_⟩
    rw [← htlog]
    exact take_prefix _ _
  · exact le_max_left _ _
  · rfl

/-- The commit state after any safe step. -/
lemma SafeInv.commitStep : CommitStep (t.step a).ledger (t.nodes n) (t.after n inp) := by
  have hm := t.voteMove n inp
  have hrep := hS.log.rep n
  have hx := (hS.log.ledger_step hS.elect (hS.settled n) h).1
  have hsn := hS.commit.boundary_le n
  cases t.logMove n inp with
  | still hlog hdisc happ =>
    refine hS.commitStep_of_eq hx happ (by rw [hlog]) (by rw [hlog]; exact hsn) hm.term_le ?_
    rw [fullLog, fullLog, hlog, hdisc]
  | send k hnew => rw [hnew]; exact hS.commitStep_of_eq hx rfl rfl hsn le_rfl prefix_rfl
  | propose op ts _ _ hnew =>
    rw [hnew]
    refine hS.commitStep_of_eq hx rfl rfl hsn le_rfl ?_
    rw [(fullLog_proposed hrep n op ts).1]
    exact prefix_append _ _
  | compact _ hlt hterm hnew =>
    have hlog := compacted_log hrep hlt hterm
    rw [hnew]
    refine hS.commitStep_of_eq hx rfl (by rw [hlog]) ?_ le_rfl
      (by rw [(fullLog_compacted hrep hlt hterm).1])
    rw [hlog]
    exact (hS.commit.applied_eq n).le
  | append m p pt es lc hinp hbody hon hle hpass hnew =>
    subst hinp
    rw [hnew]
    exact hS.commitStep_append hx (Cluster.mem_of_input_receive h).1 hbody hle hpass
      (verified_of_safe hsafe h hon)
  | install m i it snap inc hinp hbody hon hle hnew =>
    subst hinp
    rw [hnew]
    exact hS.commitStep_install hx (Cluster.mem_of_input_receive h).1 hbody hle
      (verified_of_safe hsafe h hon)
  | count m k hinp hbody hon hle hl hnew =>
    rcases advanceCommitLocked_cases n ((t.nodes n).acknowledged m.senderID k) with
      hadv | ⟨idx, hlt, hlast, hterm, hmaj, hadv⟩
    · rw [hnew, hadv]
      exact hS.commitStep_of_eq hx rfl rfl hsn le_rfl prefix_rfl
    · rw [hnew, hadv]
      exact hS.commitStep_count h hsafe hl (hnew.trans hadv) hlt hlast hterm hmaj

/-- What a step declares committed is backed. -/
lemma SafeInv.declared_step (hm : m ∈ t.sent n inp) :
    Backed LogEntry.term (t.step a).ledger ((t.step a).ledger.tlog m.term) m.term m.commits := by
  rcases (t.logMove n inp).sent_cases hm with hplain | ⟨-, -, target, rfl⟩ | ⟨p, -, hp, -⟩
  · rw [commits_of_isPlain hplain]
    exact backed_zero
  · exact backed_zero
  · -- what a leader sends declares at most its own commit index
    have hc := hS.commitStep h hsafe
    have hlog := (logInv_step hS.elect hS.log hS.settled a).leader_log n
    rw [Trace.step_nodes_self h] at hlog
    obtain ⟨hl, ⟨-, rfl⟩ | ⟨prev, -, rfl⟩⟩ := mem_sendAppend n _ hp
    · refine Backed.of_le ?_ hc.boundary_le
      show Backed _ _ ((t.step a).ledger.tlog (t.after n inp).currentTerm) _ _
      rw [← hlog hl]
      exact hc.backed
    · show Backed _ _ ((t.step a).ledger.tlog (t.after n inp).currentTerm) _ _
      rw [← hlog hl]
      exact hc.backed

end

/-- **One safe step keeps all invariants.** -/
theorem safeInv_step (hsafe : t.safe a = true) : SafeInv (t.step a) where
  elect := electInv_step hS.elect a
  log := logInv_step hS.elect hS.log hS.settled a
  ack := ackInv_step hS.elect hS.log hS.ack hS.settled hsafe
  commit := by
    cases h : t.input a with
    | none =>
      rw [Trace.step_of_input_none h]
      exact { hS.commit with
        declared := fun m hm => hS.commit.declared m (Cluster.mem_of_mem_remaining hm) }
    | some r =>
      obtain ⟨n, inp⟩ := r
      have hc := hS.commitStep h hsafe
      have hx := (hS.log.ledger_step hS.elect (hS.settled n) h).1
      constructor
      case applied_eq =>
        exact fun v =>
          Trace.forall_nodes_step h hc.applied_eq (fun v _ => hS.commit.applied_eq v) v
      case boundary_le =>
        exact fun v =>
          Trace.forall_nodes_step h hc.boundary_le (fun v _ => hS.commit.boundary_le v) v
      case backed =>
        exact fun v => Trace.forall_nodes_step h hc.backed
          (fun v _ => (hS.commit.backed v).mono hx le_rfl) v
      case declared =>
        intro m hm
        rcases Trace.mem_network_step h hm with hm | hm
        · exact ((hS.commit.declared m hm).of_extension (hx.tlog m.term)).mono hx le_rfl
        · exact hS.declared_step h hsafe hm

end

lemma safeInv_init : SafeInv (Trace.init : Trace N K V) where
  elect := electInv_init
  log := logInv_init
  ack := ackInv_init
  commit :=
    { applied_eq := fun _ => rfl
      boundary_le := fun _ => le_rfl
      backed := fun _ => backed_zero
      declared := nofun }

/-- What has happened stays: the ledger grows, and no node loses what it has committed. -/
def Trace.Lasts (s t : Trace N K V) : Prop :=
  Extends s.ledger t.ledger ∧ ∀ n,
    (s.nodes n).log.commitIndex ≤ (t.nodes n).log.commitIndex ∧
    (t.nodes n).fullLog.take (s.nodes n).log.commitIndex =
      (s.nodes n).fullLog.take (s.nodes n).log.commitIndex

lemma Trace.Lasts.refl (t : Trace N K V) : t.Lasts t := ⟨Extends.refl _, fun _ => ⟨le_rfl, rfl⟩⟩

/-- A safe step loses nothing that is committed. -/
lemma SafeInv.lasts_step (hS : SafeInv t) (hsafe : t.safe a = true) : t.Lasts (t.step a) := by
  cases h : t.input a with
  | none =>
    rw [Trace.step_of_input_none h]
    exact .refl t
  | some r =>
    obtain ⟨n, inp⟩ := r
    have hc := hS.commitStep h hsafe
    refine ⟨(hS.log.ledger_step hS.elect (hS.settled n) h).1, ?_⟩
    exact fun v =>
      Trace.forall_nodes_step h ⟨hc.mono, hc.stable⟩ (fun _ _ => ⟨le_rfl, rfl⟩) v

end step

/-! ### Safe runs -/

/-- A run in which every delivered message is verified. -/
abbrev Safe (as : List (Action N K V)) : Prop :=
  Along Cluster.step (fun s a => s.safe a = true) Cluster.init as

/-- The invariants hold in every safe run. -/
lemma safeInv_run {as : List (Action N K V)} (h : Safe as) :
    SafeInv (run Trace.step Trace.init as) :=
  run_invariant SafeInv (fun _ _ hsafe hS => safeInv_step hS hsafe)
    (Trace.along_cluster (t := Trace.init) h) safeInv_init

/-- A safe run loses nothing that is committed. -/
lemma lasts_run {as bs : List (Action N K V)} (h : Safe (as ++ bs)) :
    (run Trace.step Trace.init as).Lasts (run Trace.step Trace.init (as ++ bs)) := by
  obtain ⟨has, hbs⟩ := along_append.mp (Trace.along_cluster (t := Trace.init) h)
  rw [run_append]
  generalize hs : run Trace.step Trace.init as = s at *
  have hS : SafeInv s := hs ▸ safeInv_run (along_append.mp h).1
  refine (run_invariant (fun t => SafeInv t ∧ s.Lasts t) ?_ hbs ⟨hS, .refl s⟩).2
  rintro t a hsafe ⟨hT, hx, hstable⟩
  obtain ⟨hx', hstable'⟩ := hT.lasts_step hsafe
  refine ⟨safeInv_step hT hsafe, hx.trans hx', fun n => ?_⟩
  obtain ⟨hle, htake⟩ := hstable n
  obtain ⟨hle', htake'⟩ := hstable' n
  refine ⟨hle.trans hle', ?_⟩
  -- the old committed part is a part of the one just before the step
  rw [← htake, ← min_eq_left hle, ← take_take, ← take_take, htake']

/-- **Leader completeness** in safe runs. If a node in term `T` holds an entry at an index it has
committed, every node that from then on is leader in a later term holds that entry at that
index, in its log or below its snapshot boundary. -/
theorem leader_completeness (as bs : List (Action N K V)) (h : Safe (as ++ bs)) (n m : Fin N)
    (i : ℕ) (e : Entry N K V)
    (hcommit : i ≤ ((run Cluster.step Cluster.init as).nodes n).log.commitIndex)
    (he : ((run Cluster.step Cluster.init as).nodes n).log.get i = some e)
    (hl : ((run Cluster.step Cluster.init (as ++ bs)).nodes m).role = .leader)
    (hterm : ((run Cluster.step Cluster.init as).nodes n).currentTerm <
      ((run Cluster.step Cluster.init (as ++ bs)).nodes m).currentTerm) :
    ((run Cluster.step Cluster.init (as ++ bs)).nodes m).Holds i e := by
  have hS := safeInv_run (along_append.mp h).1
  have hS' := safeInv_run h
  obtain ⟨hx, -⟩ := lasts_run h
  simp only [← Trace.run_init_cluster] at hcommit he hl hterm ⊢
  -- the committed part is in the log of the later leader
  have hback := (hS.commit.backed n).mono hx le_rfl
  have hpre := hback.prefix_tlog hS'.log.coherent hS'.ack.ledger_voted hterm.le
    (by rw [hS'.elect.leader_elected m hl]; exact Option.some_ne_none m)
  rw [← hS'.log.leader_log m hl] at hpre
  have he' := (RaftNode.holds_iff (hS.log.rep n)).mp (.inl he)
  rw [RaftNode.holds_iff (hS'.log.rep m), ← he']
  refine (entryAt_prefix_eq hpre ?_).trans (entryAt_take hcommit)
  rw [length_take_of_le hback.le_length]
  exact hcommit

/-- Node `0`, leader of term `1`, commits a write with node `1`. -/
def commitFirst : List (Action 3 ℕ ℕ) :=
  electFirst ++ [Action.submit 0 (.write 7 70) 5, .deliver 1, .deliver 2]

/-- Node `1` is elected in term `2` with the vote of node `2`. -/
def electSecond : List (Action 3 ℕ ℕ) := [.tick 1 (.elect true), .deliver 3, .deliver 3]

/-- The write committed by the first leader is in the log of the second. -/
theorem leader_completeness_second :
    Safe (commitFirst ++ electSecond) ∧
    ((run Cluster.step Cluster.init commitFirst).nodes 0).log.get 1 =
      some ⟨1, 1, 7, 70, .set, 5, 0, .empty⟩ ∧
    ((run Cluster.step Cluster.init (commitFirst ++ electSecond)).nodes 1).Holds 1
      ⟨1, 1, 7, 70, .set, 5, 0, .empty⟩ :=
  ⟨by decide +kernel, rfl, leader_completeness commitFirst electSecond (by decide +kernel) 0 1 1 _
    (by decide +kernel) rfl (by decide +kernel) (by decide +kernel)⟩

/-- A run within the guarantees of the fabric. Node `0` leads term `1` and appends two entries
that reach nobody. Node `1` leads term `2`, and its first heartbeat, which carries nothing, is
acknowledged by node `0` with index `2`, the end of its own log. -/
def tailRun : List (Action 3 ℕ ℕ) :=
  [.tick 0 (.elect true), .deliver 1, .drop 0, .deliver 0,
    .submit 0 (.write 0 1) 0, .submit 0 (.write 0 2) 0, .drop 0, .drop 0, .drop 0, .drop 0,
    .tick 1 (.elect true), .tick 1 (.elect true), .drop 0, .drop 0, .drop 0, .deliver 0,
    .deliver 0, .tick 1 .spawned, .deliver 0, .drop 0,
    .submit 1 (.write 0 3) 0, .drop 1, .drop 1, .deliver 0]

/-- Node `0` is elected again, in term `3`, with the vote of node `2`. -/
def tailElection : List (Action 3 ℕ ℕ) := [.tick 0 (.elect true), .drop 0, .deliver 0, .deliver 0]

/-- An acknowledged tail that was never checked: the leader of term `2` commits an entry that no
other node has, and the leader of term `3` has another entry at its index. -/
theorem unverified_tail_loses_entry :
    Along Cluster.step (fun s a => s.fifo a = true) Cluster.init (tailRun ++ tailElection) ∧
    ((run Cluster.step Cluster.init tailRun).nodes 1).role = .leader ∧
    ((run Cluster.step Cluster.init tailRun).nodes 1).currentTerm = 2 ∧
    1 ≤ ((run Cluster.step Cluster.init tailRun).nodes 1).log.commitIndex ∧
    (((run Cluster.step Cluster.init tailRun).nodes 1).log.get 1).map LogEntry.term = some 2 ∧
    ((run Cluster.step Cluster.init (tailRun ++ tailElection)).nodes 0).role = .leader ∧
    ((run Cluster.step Cluster.init (tailRun ++ tailElection)).nodes 0).currentTerm = 3 ∧
    ((run Cluster.step Cluster.init (tailRun ++ tailElection)).nodes 0).log.snapshotIndex = 0 ∧
    (((run Cluster.step Cluster.init (tailRun ++ tailElection)).nodes 0).log.get 1).map
      LogEntry.term = some 1 := by
  decide +kernel

/-- **The committed prefix is stable** in safe runs. Every index a node has committed is held by
it, with one and the same entry in every later state; and in every state the applied index, the
commit index and the last index are in order. -/
theorem committed_prefix_stable (as : List (Action N K V)) (h : Safe as) (n : Fin N) :
    ((run Cluster.step Cluster.init as).nodes n).applied ≤
        ((run Cluster.step Cluster.init as).nodes n).log.commitIndex ∧
    ((run Cluster.step Cluster.init as).nodes n).log.commitIndex ≤
        ((run Cluster.step Cluster.init as).nodes n).log.lastIndex ∧
    ∀ i, 0 < i → i ≤ ((run Cluster.step Cluster.init as).nodes n).log.commitIndex →
      ∃ e, ((run Cluster.step Cluster.init as).nodes n).Holds i e ∧
        ∀ bs, Safe (as ++ bs) →
          ((run Cluster.step Cluster.init (as ++ bs)).nodes n).Holds i e := by
  have hS := safeInv_run h
  have hrep := hS.log.rep n
  have hlen := (hS.commit.backed n).le_length
  simp only [← Trace.run_init_cluster]
  refine ⟨(hS.commit.applied_eq n).le, hrep.lastIndex_eq ▸ hlen, fun i hpos hi => ?_⟩
  obtain ⟨e, he⟩ := exists_entryAt hpos (hi.trans hlen)
  refine ⟨e, (RaftNode.holds_iff hrep).mpr he, fun bs hbs => ?_⟩
  have hS' := safeInv_run hbs
  obtain ⟨-, hstable⟩ := lasts_run hbs
  rw [RaftNode.holds_iff (hS'.log.rep n), ← he]
  exact entryAt_eq_of_take_eq (hstable n).2 hi

/-- The committed write of the first leader stays where it is while the second is elected. -/
theorem committed_prefix_stable_second :
    1 ≤ ((run Cluster.step Cluster.init commitFirst).nodes 0).log.commitIndex ∧
    ∃ e, ((run Cluster.step Cluster.init commitFirst).nodes 0).Holds 1 e ∧
      ((run Cluster.step Cluster.init (commitFirst ++ electSecond)).nodes 0).Holds 1 e := by
  refine ⟨by decide +kernel, ?_⟩
  obtain ⟨-, -, hheld⟩ := committed_prefix_stable commitFirst (by decide +kernel) 0
  obtain ⟨e, he, hlater⟩ := hheld 1 (by decide +kernel) (by decide +kernel)
  exact ⟨e, he, hlater electSecond (by decide +kernel)⟩

/-- The leader of term `3` brings its own entries to node `1`. -/
def tailOverwrite : List (Action 3 ℕ ℕ) :=
  [.tick 0 .spawned, .drop 1, .deliver 0, .deliver 0, .tick 0 .beat, .drop 1, .deliver 0,
    .deliver 0, .tick 0 .beat, .drop 1, .deliver 0]

/-- After an unchecked tail was acknowledged, node `1` loses the entry it has committed: index
`1` has term `2` when it is committed, and term `1` later. -/
theorem unverified_tail_overwrites_committed :
    Along Cluster.step (fun s a => s.fifo a = true) Cluster.init
      (tailRun ++ (tailElection ++ tailOverwrite)) ∧
    1 ≤ ((run Cluster.step Cluster.init tailRun).nodes 1).log.commitIndex ∧
    (((run Cluster.step Cluster.init tailRun).nodes 1).log.get 1).map LogEntry.term = some 2 ∧
    ((run Cluster.step Cluster.init
      (tailRun ++ (tailElection ++ tailOverwrite))).nodes 1).log.snapshotIndex = 0 ∧
    (((run Cluster.step Cluster.init
      (tailRun ++ (tailElection ++ tailOverwrite))).nodes 1).log.get 1).map LogEntry.term =
      some 1 := by
  decide +kernel

/-! ### Match indices -/

/-- A peer of the leader's term has its log up to the match index. -/
lemma SafeInv.match_take {t : Trace N K V} (hS : SafeInv t) {n p : Fin N}
    (hl : (t.nodes n).role = .leader) (hp : p ≠ n)
    (hterm : (t.nodes p).currentTerm = (t.nodes n).currentTerm) :
    (t.nodes n).matchIndex p ≤ (t.nodes n).fullLog.length ∧
      (t.nodes n).fullLog.take ((t.nodes n).matchIndex p) <+: (t.nodes p).fullLog := by
  have hmatch := hS.ack.match_le n hl p hp
  rw [hS.log.leader_log n hl]
  refine ⟨hmatch.trans (hS.ack.acked_le p _), ?_⟩
  rcases hS.ack.kept p _ _ hmatch with hpre | ⟨W, hlt, hle, -⟩
  · exact hpre
  · -- the peer has not left the leader's term
    omega

/-- **Match indices are sound** in safe runs. In every state, the match index that a leader has
recorded for a peer of its own term is within its log, and up to it both hold the same entries, in
their logs or below their snapshot boundaries. -/
theorem match_index_sound (as : List (Action N K V)) (h : Safe as) (n p : Fin N)
    (hl : ((run Cluster.step Cluster.init as).nodes n).role = .leader) (hp : p ≠ n)
    (hterm : ((run Cluster.step Cluster.init as).nodes p).currentTerm =
      ((run Cluster.step Cluster.init as).nodes n).currentTerm) :
    ((run Cluster.step Cluster.init as).nodes n).matchIndex p ≤
        ((run Cluster.step Cluster.init as).nodes n).log.lastIndex ∧
      ∀ i, 0 < i → i ≤ ((run Cluster.step Cluster.init as).nodes n).matchIndex p →
        ∃ e, ((run Cluster.step Cluster.init as).nodes n).Holds i e ∧
          ((run Cluster.step Cluster.init as).nodes p).Holds i e := by
  have hS := safeInv_run h
  simp only [← Trace.run_init_cluster] at hl hterm ⊢
  obtain ⟨hle, hpre⟩ := hS.match_take hl hp hterm
  refine ⟨(hS.log.rep n).lastIndex_eq ▸ hle, fun i hpos hi => ?_⟩
  obtain ⟨e, he⟩ := exists_entryAt hpos (hi.trans hle)
  refine ⟨e, (RaftNode.holds_iff (hS.log.rep n)).mpr he, ?_⟩
  rw [RaftNode.holds_iff (hS.log.rep p), entryAt_prefix_eq hpre, entryAt_take hi, he]
  rw [length_take_of_le hle]
  exact hi

/-- The first leader knows that node `1` has its write. -/
theorem match_index_sound_first :
    ((run Cluster.step Cluster.init commitFirst).nodes 0).matchIndex 1 = 1 ∧
    ∃ e, ((run Cluster.step Cluster.init commitFirst).nodes 0).Holds 1 e ∧
      ((run Cluster.step Cluster.init commitFirst).nodes 1).Holds 1 e :=
  ⟨by decide +kernel, (match_index_sound commitFirst (by decide +kernel) 0 1 (by decide +kernel)
    (by decide) (by decide +kernel)).2 1 (by decide) (by decide +kernel)⟩

/-- The unchecked tail as a match index: node `1`, leader of term `2` with one entry, records index
`2` for node `0`, which is in term `2` as well and has an entry of term `1` at index `1`. -/
theorem unverified_tail_matched :
    Along Cluster.step (fun s a => s.fifo a = true) Cluster.init tailRun ∧
    ((run Cluster.step Cluster.init tailRun).nodes 1).role = .leader ∧
    ((run Cluster.step Cluster.init tailRun).nodes 1).currentTerm = 2 ∧
    ((run Cluster.step Cluster.init tailRun).nodes 0).currentTerm = 2 ∧
    ((run Cluster.step Cluster.init tailRun).nodes 1).matchIndex 0 = 2 ∧
    ((run Cluster.step Cluster.init tailRun).nodes 1).log.lastIndex = 1 ∧
    (((run Cluster.step Cluster.init tailRun).nodes 1).log.get 1).map LogEntry.term = some 2 ∧
    (((run Cluster.step Cluster.init tailRun).nodes 0).log.get 1).map LogEntry.term = some 1 := by
  decide +kernel

end Replication.Raft
