import Replication.Raft.LogMatching

/-!
# Raft · Acks: what an acknowledgement and a vote are worth

A successful AppendAck carries the last index of the follower's *own* log. It says something about
the leader's log only if that log ends inside the part the message has checked, and only for the
term it was sent in. `handleAppendEntries` and `handleAppendAck` ensure neither, so the results
from here on are about the runs that do:

* `Cluster.safe` — every message delivered is verified; all other steps are free.
* `SafeChange` — under that condition a follower acknowledges exactly a log that begins its
  leader's.
* `AckInv` — the invariant: acknowledged parts are kept (`Ledger.Kept`), match indices and
  acknowledgements in flight are recorded ones, votes are sound (`Ledger.VoteSound`).
-/

set_option linter.unusedSectionVars false

namespace Replication.Raft

open Storage Log Node Library Function List
open Library.Ledger

variable {N : ℕ} {K V : Type} [DecidableEq K] [Inhabited V] {U i : ℕ} {c v : Fin N}
  {m : Message N K V} {out : List (Message N K V)} {t : Trace N K V} {a : Action N K V} {n : Fin N}
  {inp : Input N K V}

/-! ### The condition -/

/-- Some of the entries contradicts the log: its index is held with another term. -/
def RaftNode.conflicts (n : RaftNode N K V) (es : List (Entry N K V)) : Bool :=
  es.any fun e => decide (n.log.snapshotIndex < e.index ∧ e.index ≤ n.log.lastIndex ∧
    n.log.termAt e.index ≠ e.term)

/-- The node may handle the message.

* An AppendEntries message that passes the consistency check covers the log to its end, or
  contradicts it (so that it is cut), or meets a log that ends in the sender's own term.
* A snapshot above the boundary covers the log to its end or contradicts it; one at or below the
  boundary meets a log with nothing above the boundary, or one that ends in the sender's term.
* A leader counts acknowledgements of its own term only. -/
def RaftNode.verified (n : RaftNode N K V) (m : Message N K V) : Bool :=
  match m.body with
  | .appendEntries p pt es _ =>
    n.currentTerm ≤ m.term → n.log.matches p pt = true →
      (n.log.lastIndex ≤ p + es.length ∨ n.conflicts es = true ∨
        n.log.lastIndexTerm.2 = m.term)
  | .installSnap i it _ _ =>
    n.currentTerm ≤ m.term →
      if n.log.snapshotIndex < i then n.log.lastIndex ≤ i ∨ n.log.termAt i ≠ it
      else n.log.lastIndex ≤ n.log.snapshotIndex ∨ n.log.lastIndexTerm.2 = m.term
  | .appendAck true _ => n.role = .leader → m.term ≤ n.currentTerm → m.term = n.currentTerm
  | _ => true

/-- The step delivers only what the receiver may handle. -/
def Cluster.safe (s : Cluster N K V) : Action N K V → Bool
  | .deliver i =>
    match s.network[i]? with
    | none => true
    | some m => (s.nodes m.targetID).state.isPaused || (s.nodes m.targetID).verified m
  | _ => true

/-- A safe delivery is verified, unless the receiver is paused. -/
lemma verified_of_safe {s : Cluster N K V} (hs : s.safe a = true)
    (h : s.input a = some (n, .receive m)) (hon : (s.nodes n).state.isPaused = false) :
    (s.nodes n).verified m = true := by
  obtain ⟨i, rfl, hm, rfl⟩ := Cluster.deliver_of_input_receive h
  unfold Cluster.safe at hs
  simp only [hm] at hs
  rwa [hon, Bool.false_or] at hs

/-! ### The acknowledgements a step sends -/

lemma ackIndex_eq_zero (h : ∀ m ∈ out, ∀ k, m.body ≠ .appendAck true k) :
    Trace.ackIndex out = 0 := by
  induction out with
  | nil => rfl
  | cons m out ih =>
    unfold Trace.ackIndex
    split
    · rename_i k hb
      exact absurd hb (h m mem_cons_self k)
    · exact ih fun m' hm' => h m' (mem_cons_of_mem m hm')

lemma ackIndex_ackMessage (self target : Fin N) (T k : ℕ) :
    Trace.ackIndex [(RaftNode.ackMessage self target T true k : Message N K V)] = k :=
  Nat.max_zero k

lemma ackIndex_plain (h : ∀ m ∈ out, m.isPlain = true) : Trace.ackIndex out = 0 := by
  refine ackIndex_eq_zero fun m hm k hb => ?_
  have := h m hm
  simp [Message.isPlain, hb] at this

lemma ackIndex_send {self : Fin N} {n : RaftNode N K V}
    (h : ∀ m ∈ out, ∃ p, p ≠ self ∧ m ∈ RaftNode.sendAppend self n p) : Trace.ackIndex out = 0 := by
  refine ackIndex_eq_zero fun m hm k hb => ?_
  obtain ⟨p, -, hp⟩ := h m hm
  obtain ⟨-, ⟨-, rfl⟩ | ⟨prev, -, rfl⟩⟩ := RaftNode.mem_sendAppend self n hp
  · cases hb
  · cases hb

/-- The log with which a leader starts is recorded. -/
lemma recordLedger_base (L : Ledger (Fin N) (Entry N K V)) (self : Fin N)
    (old new : RaftNode N K V) (out : List (Message N K V)) (hn : new.role = .leader)
    (ho : old.role ≠ .leader) :
    (Trace.recordLedger L self old new out).base new.currentTerm = new.fullLog := by
  unfold Trace.recordLedger
  simp [hn, ho, Ledger.ack, Ledger.elect]

/-! ### Safe changes of a log -/

/-- What a safe step does to the full log of a node, and what it acknowledges. -/
inductive SafeChange (L : Ledger (Fin N) (Entry N K V)) (old new : RaftNode N K V)
    (out : List (Message N K V)) : Prop
  | same (h : new.fullLog = old.fullLog) (hack : Trace.ackIndex out = 0)
  | own (e : Entry N K V) (hold : old.role = .leader) (hlead : new.role = .leader)
      (hterm : e.term = new.currentTerm) (h : new.fullLog = old.fullLog ++ [e])
  /-- A follower adopts a part of the log of its term's leader, ends up with a log that begins
  the leader's, and acknowledges it. -/
  | adopt (k : ℕ) (hrole : new.role = .follower) (hel : L.elected new.currentTerm ≠ none)
      (h : Adopts (L.tlog new.currentTerm) k old.fullLog new.fullLog)
      (hpre : new.fullLog <+: L.tlog new.currentTerm)
      (hack : Trace.ackIndex out = new.fullLog.length)

section safe

open RaftNode

section

variable (hI : LogInv t)

include hI

/-- A log that ends in a leader's term begins the leader's log. -/
lemma LogInv.prefix_of_lastTerm {W : ℕ} (hel : t.ledger.elected W ≠ none)
    (hlast : (t.nodes n).log.lastIndexTerm.2 = W) : (t.nodes n).fullLog <+: t.ledger.tlog W := by
  rw [(hI.rep n).lastIndexTerm_eq] at hlast
  exact (hI.sourced n).prefix_tlog (hI.coherent.elected_pos W hel) hlast

/-- A log that is contradicted does not begin with the entries. -/
lemma LogInv.not_prefix_of_conflicts {ref es : List (Entry N K V)} {p : ℕ}
    (hes : ∀ j e, es[j]? = some e → ref[p + j]? = some e ∧ e.index = p + j + 1)
    (hc : (t.nodes n).conflicts es = true) :
    ¬ ref.take (p + es.length) <+: (t.nodes n).fullLog := by
  intro hpre
  unfold RaftNode.conflicts at hc
  obtain ⟨e, hmem, hcon⟩ := any_eq_true.mp hc
  obtain ⟨hsn, -, hne⟩ := of_decide_eq_true hcon
  obtain ⟨j, hj⟩ := mem_iff_getElem?.mp hmem
  obtain ⟨href, hidx⟩ := hes j e hj
  have hjlt : j < es.length := (List.getElem?_eq_some_iff.mp hj).1
  have hrlt : p + j < ref.length := (List.getElem?_eq_some_iff.mp href).1
  -- the log begins with the entries, so it holds this one
  have hat : entryAt (t.nodes n).fullLog (p + j + 1) = some e := by
    rw [entryAt_prefix_eq hpre (by rw [length_take]; omega), entryAt_take (by omega)]
    exact href
  rw [(hI.rep n).termAt_eq hsn.le, hidx, termAt_of_entryAt hat] at hne
  exact hne rfl

/-- A verified AppendEntries message leaves a log that begins the leader's. -/
lemma LogInv.append_begins (hset : Settled t n) (hmem : m ∈ t.network) {p pt : ℕ}
    {es : List (Entry N K V)} {lc : ℕ} (hbody : m.body = .appendEntries p pt es lc)
    (hle : (t.nodes n).currentTerm ≤ m.term) (hpass : (t.nodes n).log.matches p pt = true)
    (hver : (t.nodes n).verified m = true) :
    (((t.nodes n).follow m.senderID m.term).accept p es lc).fullLog <+: t.ledger.tlog m.term := by
  obtain ⟨hel, hk, hadopt⟩ := hI.append_adopts hset hmem hbody hle hpass
  have hes : ∀ j e, es[j]? = some e →
      (t.ledger.tlog m.term)[p + j]? = some e ∧ e.index = p + j + 1 := fun j e he => by
    have hf := hI.faithful m hmem
    unfold Message.Faithful at hf
    rw [hbody] at hf
    exact ⟨hf.2.1 j e he, hI.indexed m.term (p + j + 1) e (hf.2.1 j e he)⟩
  unfold RaftNode.verified at hver
  rw [hbody] at hver
  rcases hadopt with ⟨hs, hp⟩ | ⟨hs, -⟩
  · rw [hs]
    rcases of_decide_eq_true hver hle hpass with hlen | hcon | hlast
    · -- the message covers the log to its end
      rw [(hI.rep n).lastIndex_eq] at hlen
      rw [← hp.eq_of_length_le (by rw [length_take_of_le hk]; exact hlen)]
      exact take_prefix _ _
    · -- a log that the message contradicts is cut
      exact absurd hp (hI.not_prefix_of_conflicts hes hcon)
    · -- the log ends in the leader's own term
      exact hI.prefix_of_lastTerm hel hlast
  · rw [hs]
    exact take_prefix _ _

/-- A verified InstallSnapshot message makes the log adopt a part of the leader's, and leaves one
that begins the leader's. -/
lemma LogInv.install_adopts (hset : Settled t n) (hmem : m ∈ t.network) {it : ℕ}
    {snap : K → Option (KVEntry (Fin N) K V)} {inc : List (Entry N K V)}
    (hbody : m.body = .installSnap i it snap inc) (hle : (t.nodes n).currentTerm ≤ m.term)
    (hver : (t.nodes n).verified m = true) :
    ∃ k, Adopts (t.ledger.tlog m.term) k (t.nodes n).fullLog
        (((t.nodes n).follow m.senderID m.term).install i it snap inc).fullLog ∧
      (((t.nodes n).follow m.senderID m.term).install i it snap inc).fullLog <+:
        t.ledger.tlog m.term := by
  obtain ⟨hel, hi, hit, hfull⟩ := hI.install_takes (n := n) hmem hbody
  have hrep := hI.rep n
  unfold RaftNode.verified at hver
  rw [hbody] at hver
  have hver := of_decide_eq_true hver hle
  rw [hfull]
  by_cases hs : (t.nodes n).log.snapshotIndex < i
  · rw [if_pos hs] at hver ⊢
    refine ⟨i, .inr ⟨rfl, ?_⟩, take_prefix _ _⟩
    rcases hver with hlen | hne
    · exact .inl (hrep.lastIndex_eq ▸ hlen)
    · refine .inr fun hpre => hne ?_
      rw [hrep.termAt_eq hs.le, hit, termAt, termAt,
        entryAt_prefix_eq hpre (by rw [length_take_of_le hi]), entryAt_take le_rfl]
  · rw [if_neg hs] at hver ⊢
    have hpre : (t.nodes n).fullLog <+: t.ledger.tlog m.term := by
      rcases hver with hlen | hlast
      · have := hset m.term hle hel
        rwa [take_of_length_le (hrep.lastIndex_eq ▸ hlen)] at this
      · exact hI.prefix_of_lastTerm hel hlast
    refine ⟨(t.nodes n).fullLog.length, .inl ⟨rfl, ?_⟩, hpre⟩
    rw [take_prefix_eq hpre le_rfl, take_length]

/-- Every safe step changes the full log of the acting node in one of the three ways. -/
lemma LogInv.safeChange (hset : Settled t n) (h : t.input a = some (n, inp))
    (hsafe : t.safe a = true) :
    SafeChange t.ledger (t.nodes n) (t.after n inp) (t.sent n inp) := by
  have hlast := (hI.repInv.rep_step h).lastIndex_eq
  cases t.logMove n inp with
  | still hlog hdisc _ _ _ hout =>
    exact .same (by rw [fullLog, hlog, hdisc, fullLog]) (ackIndex_plain hout)
  | send k hnew hout => exact .same (by rw [hnew]; rfl) (ackIndex_send hout)
  | propose op ts _ hl hnew =>
    exact .own (RaftNode.proposal n (t.nodes n) op.key op.value op.op ts) hl
      (by rw [hnew]; exact hl) (by rw [hnew]; rfl)
      (by rw [hnew]; exact (fullLog_proposed (hI.rep n) n op ts).1)
  | compact _ hlt hterm hnew hout =>
    exact .same (by rw [hnew]; exact (fullLog_compacted (hI.rep n) hlt hterm).1) (by rw [hout]; rfl)
  | append m p pt es lc hinp hbody hon hle hpass hnew hout =>
    subst hinp
    have hmem := (Cluster.mem_of_input_receive h).1
    have hver := verified_of_safe hsafe h hon
    obtain ⟨hel, hk, hadopt⟩ := hI.append_adopts hset hmem hbody hle hpass
    have hpre := hI.append_begins hset hmem hbody hle hpass hver
    have hterm : (t.after n (.receive m)).currentTerm = m.term := by
      rw [hnew, accept_currentTerm, follow_currentTerm _ hle]
    rw [← hnew] at hadopt hpre
    refine .adopt (p + es.length) (by rw [hnew, accept_role, follow_role]) ?_ ?_ ?_ ?_
    · rwa [hterm]
    · rwa [hterm]
    · rwa [hterm]
    · rw [hout, ackIndex_ackMessage, hlast]
  | install m i it snap inc hinp hbody hon hle hnew hout =>
    subst hinp
    have hmem := (Cluster.mem_of_input_receive h).1
    have hver := verified_of_safe hsafe h hon
    obtain ⟨k, hadopt, hpre⟩ := hI.install_adopts hset hmem hbody hle hver
    have hel := (hI.install_takes (n := n) hmem hbody).1
    have hterm : (t.after n (.receive m)).currentTerm = m.term := by
      rw [hnew, install_currentTerm, follow_currentTerm _ hle]
    rw [← hnew] at hadopt hpre
    refine .adopt k (by rw [hnew, install_role, follow_role]) ?_ ?_ ?_ ?_
    · rwa [hterm]
    · rwa [hterm]
    · rwa [hterm]
    · rw [hout, ackIndex_ackMessage, hlast]
  | count m k _ _ _ _ _ hnew hout =>
    obtain ⟨st, ap, c, hadv⟩ := (t.nodes n).advance_acknowledged_eq n m.senderID k
    exact .same (by rw [hnew, hadv]; rfl) (by rw [hout]; rfl)

end

end safe

/-! ### The invariant -/

/-- The invariant of acknowledgements and votes. -/
structure AckInv (t : Trace N K V) : Prop where
  /-- No more than the leader's log is acknowledged. -/
  acked_le : ∀ v T, t.ledger.acked v T ≤ (t.ledger.tlog T).length
  /-- A node acknowledges nothing in a term it has not reached. -/
  acked_term : ∀ v T, t.ledger.acked v T ≠ 0 → T ≤ (t.nodes v).currentTerm
  kept : ∀ v, Kept t.ledger v (t.nodes v).fullLog (t.nodes v).currentTerm
  /-- A leader's match indices are acknowledged. -/
  match_le : ∀ n, (t.nodes n).role = .leader → ∀ p, p ≠ n →
    (t.nodes n).matchIndex p ≤ t.ledger.acked p (t.nodes n).currentTerm
  /-- A leader has acknowledged its own log. -/
  leader_acked : ∀ n, (t.nodes n).role = .leader →
    (t.nodes n).fullLog.length ≤ t.ledger.acked n (t.nodes n).currentTerm
  /-- An acknowledgement in flight is recorded. -/
  ack_le : ∀ m ∈ t.network, ∀ k, m.body = .appendAck true k →
    k ≤ t.ledger.acked m.senderID m.term
  /-- A candidate's requests describe its log. -/
  request_log : ∀ m ∈ t.network, ∀ i j, m.body = .voteRequest i j →
    (t.nodes m.senderID).role = .candidate →
    (t.nodes m.senderID).currentTerm = m.term →
    (i, j) = ((t.nodes m.senderID).fullLog.length,
      lastTerm LogEntry.term (t.nodes m.senderID).fullLog)
  /-- The votes counted in an open election are sound. -/
  counted_sound : ∀ c, (t.nodes c).role = .candidate →
    t.ledger.elected (t.nodes c).currentTerm = none → ∀ v ∈ t.counted c,
    VoteSound LogEntry.term t.ledger v (t.nodes c).currentTerm (t.nodes c).fullLog
  /-- The votes in flight in an open election are sound. -/
  response_sound : ∀ m ∈ t.network, m.body = .voteResponse true →
    (t.nodes m.targetID).role = .candidate →
    (t.nodes m.targetID).currentTerm = m.term → t.ledger.elected m.term = none →
    VoteSound LogEntry.term t.ledger m.senderID m.term (t.nodes m.targetID).fullLog
  /-- Every leader was elected by sound votes of nodes that have reached its term. -/
  voted : ∀ U, t.ledger.elected U ≠ none → ∃ Q : Finset (Fin N), N < 2 * Q.card ∧
    ∀ v ∈ Q, U ≤ (t.nodes v).currentTerm ∧
      VoteSound LogEntry.term t.ledger v U (t.ledger.base U)

/-- Every leader of the ledger was voted for. -/
lemma AckInv.ledger_voted (hA : AckInv t) : Voted LogEntry.term t.ledger := by
  intro U hU
  obtain ⟨Q, hQ, hv⟩ := hA.voted U hU
  exact ⟨Q, by simpa using hQ, fun v hvQ => (hv v hvQ).2⟩

/-- A node has reached the terms it has voted in. -/
lemma ElectInv.le_of_voted (hE : ElectInv t) (h : t.voted v U = some c) :
    U ≤ (t.nodes v).currentTerm := by
  by_contra hlt
  simp [hE.voted_later v U (not_le.mp hlt)] at h

section step

open RaftNode

/-- What is acknowledged after a step. -/
lemma step_acked (h : t.input a = some (n, inp)) (v : Fin N) (T : ℕ) :
    (t.step a).ledger.acked v T =
      if v = n ∧ T = (t.after n inp).currentTerm then
        max (t.ledger.acked n T) (Trace.ackedBy (t.after n inp) (t.sent n inp))
      else t.ledger.acked v T := by
  rw [Trace.step_ledger h, (Trace.recordLedger_spec ..).2.2]
  split_ifs with hc
  · rw [hc.2]
  · rfl

/-- A node acknowledges nothing in a term it has left. -/
lemma step_acked_below (h : t.input a = some (n, inp)) {T : ℕ}
    (hv : U ≤ ((t.step a).nodes v).currentTerm) (hT : T < U) :
    (t.step a).ledger.acked v T = t.ledger.acked v T := by
  rw [step_acked h, if_neg]
  rintro ⟨rfl, rfl⟩
  rw [Trace.step_nodes_self h] at hv
  omega

/-- Sound votes stay sound. -/
lemma AckInv.voteSound_step (hA : AckInv t) (h : t.input a = some (n, inp))
    (hx : Extends t.ledger (t.step a).ledger) {ℓ : List (Entry N K V)}
    (hv : U ≤ ((t.step a).nodes v).currentTerm) (hs : VoteSound LogEntry.term t.ledger v U ℓ) :
    VoteSound LogEntry.term (t.step a).ledger v U ℓ :=
  hx.voteSound (fun _ hT => step_acked_below h hv hT) (hA.acked_le v) hs

lemma elected_none_of_step (hx : Extends t.ledger (t.step a).ledger)
    (hU : (t.step a).ledger.elected U = none) : t.ledger.elected U = none := by
  by_contra hne
  exact hx.elected_ne_none hne hU

/-- The vote a node gives is sound: its log has kept what it acknowledged, and the candidate's
is at least as up to date. -/
lemma AckInv.voteSound_of_kept (hI : LogInv t) (hA : AckInv t) {ℓ : List (Entry N K V)}
    (hle : (t.nodes v).currentTerm ≤ U) (hU : t.ledger.elected U = none)
    (hup : UpToDate LogEntry.term ℓ (t.nodes v).fullLog) :
    VoteSound LogEntry.term t.ledger v U ℓ := by
  refine ⟨_, hI.sourced v, hup, fun T hT i hi => ?_⟩
  rcases hA.kept v T i hi with hp | ⟨W, hTW, hWt, hW, hno⟩
  · exact .inl hp
  · refine .inr ⟨W, hTW, lt_of_le_of_ne (hWt.trans hle) ?_, hW, hno⟩
    rintro rfl
    exact hW hU

/-- The votes that elect a leader are sound. -/
lemma AckInv.votes_count (hE : ElectInv t) (hA : AckInv t)
    (h : t.input a = some (n, .receive m)) (hbody : m.body = .voteResponse true)
    (hcand : (t.nodes n).role = .candidate) (hmterm : m.term = (t.nodes n).currentTerm)
    (hopen : t.ledger.elected (t.nodes n).currentTerm = none) :
    ∀ v ∈ insert m.senderID (t.counted n),
      (t.nodes n).currentTerm ≤ (t.nodes v).currentTerm ∧
      VoteSound LogEntry.term t.ledger v (t.nodes n).currentTerm (t.nodes n).fullLog := by
  intro v hv
  rcases Finset.mem_insert.mp hv with rfl | hv
  · obtain ⟨hmem, htarget⟩ := Cluster.mem_of_input_receive h
    refine ⟨hE.le_of_voted (hE.vote_of_response h hbody hmterm), ?_⟩
    have := hA.response_sound m hmem hbody
    rw [htarget, hmterm] at this
    exact this hcand rfl hopen
  · exact ⟨hE.le_of_voted (hE.counted_vote n hcand v hv), hA.counted_sound n hcand hopen v hv⟩

/-- A ballot is of a term that its candidate has reached. -/
lemma ElectInv.ballot_le (hE : ElectInv t) (hm : m ∈ t.network)
    (ht : m.ticket c v m.term = true) : m.term ≤ (t.nodes c).currentTerm := by
  by_contra hlt
  have hz := hE.ticket_later c v m.term (not_le.mp hlt)
  exact (countP_eq_zero.mp hz) m hm ht

/-- What a node acknowledges by a safe step begins the recorded log of its term's leader, and is
its whole log. -/
lemma ackedBy_cases (hs : SafeChange t.ledger (t.nodes n) (t.after n inp) (t.sent n inp))
    (h : t.input a = some (n, inp)) (hx : Extends t.ledger (t.step a).ledger) :
    Trace.ackedBy (t.after n inp) (t.sent n inp) = 0 ∨
      (Trace.ackedBy (t.after n inp) (t.sent n inp) = (t.after n inp).fullLog.length ∧
        (t.after n inp).fullLog <+: (t.step a).ledger.tlog (t.after n inp).currentTerm) := by
  unfold Trace.ackedBy
  by_cases hl : (t.after n inp).role = .leader
  · rw [if_pos hl]
    refine .inr ⟨rfl, ?_⟩
    rw [fullLog_step_self h hl]
  · rw [if_neg hl]
    cases hs with
    | same _ hack => exact .inl hack
    | own _ _ hlead => exact absurd hlead hl
    | adopt k _ _ _ hpre hack => exact .inr ⟨hack, hpre.trans (hx.tlog _)⟩

/-- The acting node keeps what it has acknowledged, the new acknowledgement included. -/
lemma AckInv.kept_step (hE : ElectInv t) (hI : LogInv t) (hA : AckInv t) (hset : Settled t n)
    (h : t.input a = some (n, inp)) (hsafe : t.safe a = true) :
    Kept (t.step a).ledger n (t.after n inp).fullLog (t.after n inp).currentTerm := by
  have hm := t.voteMove n inp
  have hs := hI.safeChange hset h hsafe
  have hx := (hI.ledger_step hE hset h).1
  -- the change of the log keeps what was acknowledged before
  have hold : Kept t.ledger n (t.nodes n).fullLog (t.after n inp).currentTerm :=
    (Extends.refl _).kept (hA.kept n) (hA.acked_le n) hm.term_le fun T i hi => .inl hi
  have hk : Kept t.ledger n (t.after n inp).fullLog (t.after n inp).currentTerm := by
    cases hs with
    | same hsame => rwa [hsame]
    | own e _ _ _ hown =>
      rw [hown]
      exact hold.of_extension (prefix_append _ _)
    | adopt k _ hel hadopt =>
      exact (hA.kept n).adopt hI.coherent hm.term_le hel (hA.acked_term n) hadopt
  refine hx.kept hk (hA.acked_le n) le_rfl fun T i hi => ?_
  rw [step_acked h] at hi
  split_ifs at hi with hc
  · obtain ⟨-, rfl⟩ := hc
    rcases ackedBy_cases hs h hx with h0 | ⟨hlen, hpre⟩
    · exact .inl (by omega)
    by_cases hil : i ≤ (t.after n inp).fullLog.length
    · right
      rw [take_prefix_eq hpre hil]
      exact take_prefix i _
    · exact .inl (by omega)
  · exact .inl hi

/-- After a step of a leader its match indices are acknowledged. -/
lemma AckInv.match_step (hA : AckInv t) (h : t.input a = some (n, inp))
    (hx : Extends t.ledger (t.step a).ledger) (hsafe : t.safe a = true)
    (hl : (t.after n inp).role = .leader) (p : Fin N) (hp : p ≠ n) :
    (t.after n inp).matchIndex p ≤ (t.step a).ledger.acked p (t.after n inp).currentTerm := by
  have hm := t.voteMove n inp
  have keep : (t.nodes n).role = .leader →
      (t.after n inp).matchIndex p = (t.nodes n).matchIndex p →
      (t.after n inp).matchIndex p ≤ (t.step a).ledger.acked p (t.after n inp).currentTerm := by
    intro ho heq
    rw [heq, hm.leader_term hl ho]
    exact (hA.match_le n ho p hp).trans (hx.acked p _)
  cases t.logMove n inp with
  | still _ _ _ _ hmatch =>
    rcases hmatch hl with ⟨ho, heq⟩ | hz
    · exact keep ho (by rw [heq])
    · rw [hz p hp]
      exact Nat.zero_le _
  | send k hnew => exact keep (by rw [hnew] at hl; exact hl) (by rw [hnew])
  | propose op ts _ ho hnew =>
    refine keep ho ?_
    rw [hnew]
    exact update_of_ne hp _ _
  | compact _ _ _ hnew => exact keep (by rw [hnew] at hl; exact hl) (by rw [hnew]; rfl)
  | append m _ _ _ _ _ _ _ _ _ hnew => simp [hnew, accept_role, follow_role] at hl
  | install m _ _ _ _ _ _ _ _ hnew => simp [hnew, install_role, follow_role] at hl
  | count m k hinp hbody hon hle ho hnew =>
    subst hinp
    obtain ⟨st, ap, c, hadv⟩ := (t.nodes n).advance_acknowledged_eq n m.senderID k
    by_cases hps : p = m.senderID
    · -- the acknowledgement is of this very term
      have hver := verified_of_safe hsafe h hon
      unfold RaftNode.verified at hver
      rw [hbody] at hver
      have hterm := of_decide_eq_true hver ho hle
      have hk := hA.ack_le m (Cluster.mem_of_input_receive h).1 k hbody
      rw [hm.leader_term hl ho, ← hterm, hnew, hadv, hps]
      refine le_trans (le_of_eq ?_) (hk.trans (hx.acked _ _))
      exact update_self ..
    · refine keep ho ?_
      rw [hnew, hadv]
      exact update_of_ne hps _ _

/-- The acknowledgements a step sends are recorded. -/
lemma ack_step (h : t.input a = some (n, inp)) {k : ℕ} (hmem : m ∈ t.sent n inp)
    (hbody : m.body = .appendAck true k) :
    k ≤ (t.step a).ledger.acked m.senderID m.term := by
  rcases (t.logMove n inp).sent_cases hmem with hplain | ⟨hrole, hout, target, rfl⟩ | ⟨p, -, hp, -⟩
  · simp [Message.isPlain, hbody] at hplain
  · cases hbody
    -- an acknowledging step sends just the acknowledgement
    have hby : Trace.ackedBy (t.after n inp) (t.sent n inp) = (t.after n inp).log.lastIndex := by
      rw [Trace.ackedBy, if_neg (by simp [hrole]), hout, ackIndex_ackMessage]
    rw [step_acked h, if_pos ⟨rfl, rfl⟩, hby]
    exact le_max_right _ _
  · obtain ⟨-, ⟨-, rfl⟩ | ⟨prev, -, rfl⟩⟩ := mem_sendAppend n _ hp
    · cases hbody
    · cases hbody

/-- The test of a voter compares the two logs. -/
lemma LogInv.upToDate_of_request (hI : LogInv t) {j : ℕ}
    (hreq : (i, j) = ((t.nodes c).fullLog.length,
      lastTerm LogEntry.term (t.nodes c).fullLog))
    (hup : (t.nodes n).upToDate i j = true) :
    UpToDate LogEntry.term (t.nodes c).fullLog (t.nodes n).fullLog := by
  unfold RaftNode.upToDate at hup
  rw [(hI.rep n).lastIndexTerm_eq] at hup
  cases hreq
  have h := of_decide_eq_true hup
  exact h

section acting

variable (hE : ElectInv t) (hI : LogInv t) (hA : AckInv t) (hset : Settled t n)
  (h : t.input a = some (n, inp))

include hI hset h

/-- A candidate keeps its log. -/
lemma candidate_step (hc : ((t.step a).nodes c).role = .candidate) :
    ((t.step a).nodes c).fullLog = (t.nodes c).fullLog ∧
      (((t.nodes c).role = .candidate ∧
        ((t.step a).nodes c).currentTerm = (t.nodes c).currentTerm) ∨
      ((t.step a).nodes c).currentTerm = (t.nodes c).currentTerm + 1) := by
  by_cases hcn : c = n
  · subst hcn
    rw [Trace.step_nodes_self h] at hc ⊢
    exact ⟨(hI.logChange hset h).of_candidate hc, (t.voteMove c inp).of_candidate hc⟩
  · rw [Trace.step_nodes_of_ne h hcn] at hc ⊢
    exact ⟨rfl, .inl ⟨hc, rfl⟩⟩

include hE hA

/-- The requests in flight after a step describe the logs of candidates. -/
lemma AckInv.request_step (hmem : m ∈ (t.step a).network) {j : ℕ}
    (hbody : m.body = .voteRequest i j) (hc : ((t.step a).nodes m.senderID).role = .candidate)
    (hterm : ((t.step a).nodes m.senderID).currentTerm = m.term) :
    (i, j) = (((t.step a).nodes m.senderID).fullLog.length,
      lastTerm LogEntry.term ((t.step a).nodes m.senderID).fullLog) := by
  obtain ⟨hfull, hcase⟩ := candidate_step hI hset h hc
  rw [hfull]
  rcases Trace.mem_network_step h hmem with hnet | hmem
  · have hle := hE.ballot_le hnet (c := m.senderID) (v := m.targetID)
      (by simp [Message.ticket, hbody])
    rcases hcase with ⟨hold, hsame⟩ | hnext
    · exact hA.request_log m hnet i j hbody hold (by omega)
    · omega
  · have hballot : m.isBallot = true := by simp [Message.isBallot, hbody]
    rcases (t.voteMove n inp).ballot_cases hmem hballot with ⟨p, _, _, rfl, hlast⟩ |
      ⟨_, _, _, rfl, -⟩
    · cases hbody
      rw [← hlast]
      exact (hI.rep n).lastIndexTerm_eq
    · cases hbody

/-- The votes in flight after a step are sound. -/
lemma AckInv.response_step (hmem : m ∈ (t.step a).network) (hbody : m.body = .voteResponse true)
    (hc : ((t.step a).nodes m.targetID).role = .candidate)
    (hterm : ((t.step a).nodes m.targetID).currentTerm = m.term)
    (hopen : (t.step a).ledger.elected m.term = none) :
    VoteSound LogEntry.term (t.step a).ledger m.senderID m.term
      ((t.step a).nodes m.targetID).fullLog := by
  have hx := (hI.ledger_step hE hset h).1
  have hopen' := elected_none_of_step hx hopen
  have hreach := (electInv_step hE a).le_of_voted ((electInv_step hE a).grant_vote m hmem hbody)
  obtain ⟨hfull, hcase⟩ := candidate_step hI hset h hc
  rw [hfull]
  refine hA.voteSound_step h hx hreach ?_
  rcases Trace.mem_network_step h hmem with hnet | hmem
  · have hle := hE.ballot_le hnet (c := m.targetID) (v := m.senderID)
      (by simp [Message.ticket, hbody])
    rcases hcase with ⟨hold, hsame⟩ | hnext
    · exact hA.response_sound m hnet hbody hold (by omega) hopen'
    · omega
  · have hballot : m.isBallot = true := by simp [Message.isBallot, hbody]
    rcases (t.voteMove n inp).ballot_cases hmem hballot with
      ⟨_, _, _, rfl, -⟩ | ⟨m', i, j, rfl, rfl, hbody', hle, -, -, hup⟩
    · cases hbody
    · have hnet := (Cluster.mem_of_input_receive h).1
      have hle' := hE.ballot_le hnet (c := m'.senderID) (v := m'.targetID)
        (by simp [Message.ticket, hbody'])
      rcases hcase with ⟨hold, hsame⟩ | hnext
      · have hreq := hA.request_log m' hnet i j hbody' hold (hsame.symm.trans hterm)
        exact hA.voteSound_of_kept hI hle hopen' (hI.upToDate_of_request hreq hup)
      · dsimp only at hnext hterm
        omega

/-- The votes a candidate has counted after a step are sound. -/
lemma AckInv.counted_step (hc : ((t.step a).nodes c).role = .candidate)
    (hopen : (t.step a).ledger.elected ((t.step a).nodes c).currentTerm = none)
    (hv : v ∈ (t.step a).counted c) :
    VoteSound LogEntry.term (t.step a).ledger v ((t.step a).nodes c).currentTerm
      ((t.step a).nodes c).fullLog := by
  have hx := (hI.ledger_step hE hset h).1
  have hopen' := elected_none_of_step hx hopen
  have hreach := (electInv_step hE a).le_of_voted ((electInv_step hE a).counted_vote c hc v hv)
  rw [(candidate_step hI hset h hc).1]
  refine hA.voteSound_step h hx hreach ?_
  by_cases hcn : c = n
  · subst hcn
    have hself := Trace.step_nodes_self h
    rw [Trace.step_counted_self h] at hv
    rw [hself] at hc hopen' ⊢
    rcases (t.voteMove c inp).candidate_cases hc with ⟨hold, hterm, hvotes⟩ | ⟨hterm, -⟩ |
      ⟨m, rfl, hbody, hcand, hmterm, hterm, hvotes⟩
    · rw [Trace.recordCounted_keep hterm hvotes] at hv
      rw [hterm] at hopen' ⊢
      exact hA.counted_sound c hold hopen' v hv
    · rw [Trace.recordCounted_stand hterm hc, Finset.mem_singleton] at hv
      subst hv
      exact hA.voteSound_of_kept hI (by omega) hopen' (.inr ⟨rfl, le_rfl⟩)
    · rw [Trace.recordCounted_count hterm hvotes] at hv
      rw [hterm] at hopen' ⊢
      exact (hA.votes_count hE h hbody hcand hmterm hopen' v hv).2
  · rw [Trace.step_nodes_of_ne h hcn] at hc hopen' ⊢
    rw [Trace.step_counted_of_ne h hcn] at hv
    exact hA.counted_sound c hc hopen' v hv

/-- Every leader after a step was elected by sound votes. -/
lemma AckInv.voted_step (hU : (t.step a).ledger.elected U ≠ none) :
    ∃ Q : Finset (Fin N), N < 2 * Q.card ∧
      ∀ v ∈ Q, U ≤ ((t.step a).nodes v).currentTerm ∧
        VoteSound LogEntry.term (t.step a).ledger v U ((t.step a).ledger.base U) := by
  have hx := (hI.ledger_step hE hset h).1
  -- sound votes before the step are sound votes after it
  have lift : ∀ {v : Fin N} {ℓ : List (Entry N K V)}, U ≤ (t.nodes v).currentTerm →
      VoteSound LogEntry.term t.ledger v U ℓ → U ≤ ((t.step a).nodes v).currentTerm ∧
        VoteSound LogEntry.term (t.step a).ledger v U ℓ := fun hle hs =>
    have hle' := hle.trans (step_term_le h _)
    ⟨hle', hA.voteSound_step h hx hle' hs⟩
  obtain ⟨c, hc⟩ := Option.ne_none_iff_exists'.mp hU
  rcases elected_step_cases h hc with hold | ⟨rfl, rfl, hl, ho⟩
  · have hne : t.ledger.elected U ≠ none := by
      rw [hold]
      exact Option.some_ne_none c
    obtain ⟨Q, hQ, hv⟩ := hA.voted U hne
    refine ⟨Q, hQ, fun v hvQ => ?_⟩
    rw [hx.base U hne]
    exact lift (hv v hvQ).1 (hv v hvQ).2
  · obtain ⟨m, ⟨rfl, hbody, hcand, hmterm, hterm, hvotes⟩, hmaj⟩ :=
      (t.voteMove c inp).of_leader hl ho
    have hopen := hE.not_elected h hl ho
    rw [hterm] at hopen
    refine ⟨_, hE.win_card h hbody hcand hmterm (hvotes ▸ hmaj), fun v hvQ => ?_⟩
    obtain ⟨hle, hs⟩ := hA.votes_count hE h hbody hcand hmterm hopen v hvQ
    rw [Trace.step_ledger h, recordLedger_base _ _ _ _ _ hl ho, ← Trace.step_ledger h,
      (hI.logChange hset h).of_win hl ho]
    exact lift (hterm ▸ hle) (hterm ▸ hs)

end acting

/-- **One safe step keeps the acknowledgement invariant.** -/
theorem ackInv_step (hE : ElectInv t) (hI : LogInv t) (hA : AckInv t) (hset : ∀ n, Settled t n)
    (hsafe : t.safe a = true) : AckInv (t.step a) := by
  cases h : t.input a with
  | none =>
    rw [Trace.step_of_input_none h]
    have hnet := fun m (hm : m ∈ t.remaining a) => Cluster.mem_of_mem_remaining hm
    exact { hA with
      ack_le := fun m hm => hA.ack_le m (hnet m hm)
      request_log := fun m hm => hA.request_log m (hnet m hm)
      response_sound := fun m hm => hA.response_sound m (hnet m hm) }
  | some r =>
    obtain ⟨n, inp⟩ := r
    have hx := (hI.ledger_step hE (hset n) h).1
    have hs := hI.safeChange (hset n) h hsafe
    constructor
    case acked_le =>
      intro v T
      rw [step_acked h]
      have hold := (hA.acked_le v T).trans (hx.tlog T).length_le
      split_ifs with hc
      · obtain ⟨rfl, rfl⟩ := hc
        refine max_le hold ?_
        rcases ackedBy_cases hs h hx with h0 | ⟨hlen, hpre⟩
        · rw [h0]
          exact Nat.zero_le _
        · rw [hlen]
          exact hpre.length_le
      · exact hold
    case acked_term =>
      intro v T hT
      rw [step_acked h] at hT
      split_ifs at hT with hc
      · obtain ⟨rfl, rfl⟩ := hc
        rw [Trace.step_nodes_self h]
      · exact (hA.acked_term v T hT).trans (step_term_le h v)
    case kept =>
      refine fun v => Trace.forall_nodes_step h ?_ (fun v hv => ?_) v
      · exact hA.kept_step hE hI (hset n) h hsafe
      · refine hx.kept (hA.kept v) (hA.acked_le v) le_rfl fun T i hi => .inl ?_
        rwa [step_acked h, if_neg fun hc => hv hc.1] at hi
    case match_le =>
      refine fun v => Trace.forall_nodes_step h ?_ ?_ v
      · exact hA.match_step h hx hsafe
      · exact fun v _ hl p hp => (hA.match_le v hl p hp).trans (hx.acked p _)
    case leader_acked =>
      refine fun v => Trace.forall_nodes_step h ?_ ?_ v
      · intro hl
        rw [step_acked h, if_pos ⟨rfl, rfl⟩, Trace.ackedBy, if_pos hl]
        exact le_max_right _ _
      · exact fun v _ hl => (hA.leader_acked v hl).trans (hx.acked v _)
    case ack_le =>
      intro m hmem k hbody
      rcases Trace.mem_network_step h hmem with hmem | hmem
      · exact (hA.ack_le m hmem k hbody).trans (hx.acked _ _)
      · exact ack_step h hmem hbody
    case request_log =>
      exact fun m hmem i j hbody hc hterm =>
        hA.request_step hE hI (hset n) h hmem hbody hc hterm
    case counted_sound =>
      exact fun c hc hopen v hv => hA.counted_step hE hI (hset n) h hc hopen hv
    case response_sound =>
      exact fun m hmem hbody hc hterm hopen =>
        hA.response_step hE hI (hset n) h hmem hbody hc hterm hopen
    case voted => exact fun U hU => hA.voted_step hE hI (hset n) h hU

lemma ackInv_init : AckInv (Trace.init : Trace N K V) where
  acked_le _ _ := Nat.zero_le _
  acked_term _ _ h := absurd rfl h
  kept _ T i hi := .inl (by
    obtain rfl : i = 0 := Nat.le_zero.mp hi
    simp)
  match_le _ h := by cases h
  leader_acked _ h := by cases h
  ack_le _ h := absurd h not_mem_nil
  request_log _ h := absurd h not_mem_nil
  counted_sound _ h := by cases h
  response_sound _ h := absurd h not_mem_nil
  voted _ h := absurd rfl h

end step

end Replication.Raft
