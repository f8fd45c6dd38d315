import Mathlib.Algebra.GroupWithZero.Nat
import Replication.Raft.Trace

/-!
# Raft · Election: at most one leader per term

Election safety, for clusters of any size and for every run: messages may be delayed, lost and
reordered, nodes paused, and elections started at any time.

* `ElectInv` — the invariant: the recorded votes are those of the nodes, every vote counted and
  every vote in flight is recorded, the counter is the number of voters counted, tickets are
  single, and every elected leader has a majority of recorded votes.
-/

set_option linter.unusedSectionVars false

namespace Replication.Raft

open Storage Log Node Library Function List

variable {N : ℕ} {K V : Type} [DecidableEq K] [Inhabited V] {T : ℕ} {c : Fin N} {inp : Input N K V}
  {out : List (Message N K V)} {t : Trace N K V} {m : Message N K V} {new old : RaftNode N K V}
  {self : Fin N}

/-! ### Tickets -/

/-- Whether a message is a ballot between candidate `c` and voter `v` in term `T`. -/
def Message.ticket (c v : Fin N) (T : ℕ) (m : Message N K V) : Bool :=
  match m.body with
  | .voteRequest _ _ => m.term = T ∧ m.senderID = c ∧ m.targetID = v
  | .voteResponse true => m.term = T ∧ m.senderID = v ∧ m.targetID = c
  | _ => false

/-- The ballots in flight between a candidate and a voter in a term. -/
def tickets (net : List (Message N K V)) (c v : Fin N) (T : ℕ) : ℕ := net.countP (·.ticket c v T)

section tickets

variable {net out : List (Message N K V)} {c v : Fin N} {T : ℕ}

/-- Only ballots are tickets. -/
lemma ticket_of_not_isBallot (h : m.isBallot = false) : m.ticket c v T = false := by
  unfold Message.isBallot at h
  unfold Message.ticket
  split <;> simp_all

lemma tickets_append : tickets (net ++ out) c v T = tickets net c v T + tickets out c v T :=
  countP_append

lemma tickets_eq_zero (h : ∀ m ∈ out, m.isBallot = false) : tickets out c v T = 0 := by
  refine countP_eq_zero.mpr fun m hm => ?_
  rw [ticket_of_not_isBallot (h m hm)]
  exact Bool.false_ne_true

lemma tickets_remaining_le (s : Cluster N K V) (a : Action N K V) :
    tickets (s.remaining a) c v T ≤ tickets s.network c v T :=
  Cluster.remaining_sublist.countP_le

/-- A message that is received was one of the tickets. -/
lemma tickets_receive {s : Cluster N K V} {a : Action N K V} {n : Fin N}
    (h : s.input a = some (n, .receive m)) :
    tickets (s.remaining a) c v T + (if m.ticket c v T then 1 else 0) =
      tickets s.network c v T := by
  obtain ⟨i, rfl, hm, -⟩ := Cluster.deliver_of_input_receive h
  obtain ⟨hi, rfl⟩ := List.getElem?_eq_some_iff.mp hm
  show List.countP _ (s.network.eraseIdx i) + _ = List.countP _ s.network
  rw [← (getElem_cons_eraseIdx_perm hi).countP_eq, countP_cons]

/-- A candidate sends one ballot to each peer. -/
lemma tickets_requests_le (self : Fin N) (a b T' : ℕ) :
    tickets ((peers self).map fun p => (⟨self, p, T', .voteRequest a b⟩ : Message N K V)) c v T ≤
      if c = self ∧ T = T' ∧ v ≠ self then 1 else 0 := by
  unfold tickets
  rw [countP_map]
  split_ifs with h
  · have hle : (peers self).countP ((fun m : Message N K V => m.ticket c v T) ∘
        fun p => ⟨self, p, T', .voteRequest a b⟩) ≤ (peers self).count v := by
      rw [count_eq_countP]
      refine countP_mono_left fun p _ hp => ?_
      simp only [Message.ticket, Function.comp_apply, decide_eq_true_eq] at hp
      simp [hp.2.2]
    exact hle.trans (nodup_iff_count_le_one.mp (peers_nodup self) v)
  · refine (countP_eq_zero.mpr fun p hp hc => h ?_).le
    simp only [Message.ticket, Function.comp_apply, decide_eq_true_eq] at hc
    obtain ⟨rfl, rfl, rfl⟩ := hc
    exact ⟨rfl, rfl, mem_peers.mp hp⟩

/-- A vote that is granted takes the place of its request. -/
lemma tickets_grant {s : Cluster N K V} {a : Action N K V} {n : Fin N} {i j : ℕ}
    (h : s.input a = some (n, .receive m)) (hbody : m.body = .voteRequest i j) :
    tickets (s.remaining a ++ [⟨n, m.senderID, m.term, .voteResponse true⟩]) c v T =
      tickets s.network c v T := by
  have htarget := (Cluster.mem_of_input_receive h).2
  rw [tickets_append, ← tickets_receive h (c := c) (v := v) (T := T)]
  congr 1
  unfold tickets
  rw [countP_singleton]
  congr 1
  unfold Message.ticket
  rw [hbody, htarget]
  simp only [decide_eq_true_eq, eq_iff_iff]
  tauto

end tickets

/-! ### The invariant -/

/-- The invariant of elections. -/
structure ElectInv (t : Trace N K V) : Prop where
  voted_cur : ∀ v, t.voted v (t.nodes v).currentTerm = (t.nodes v).votedFor
  /-- No vote is recorded for a term a node has not reached. -/
  voted_later : ∀ v T, (t.nodes v).currentTerm < T → t.voted v T = none
  /-- A candidate counts votes given to it in its term. -/
  counted_vote : ∀ c, (t.nodes c).role = .candidate → ∀ v ∈ t.counted c,
    t.voted v (t.nodes c).currentTerm = some c
  /-- The vote counter is the number of voters counted. -/
  votes_eq : ∀ c, (t.nodes c).role = .candidate →
    (t.nodes c).votes = (t.counted c).card
  /-- A candidate and a voter share at most one ballot in a term, none once it is counted. -/
  ticket : ∀ c v T, tickets t.network c v T +
    (if (t.nodes c).role = .candidate ∧ T = (t.nodes c).currentTerm ∧
      v ∈ t.counted c then 1 else 0) ≤ 1
  /-- No ballot is about a term its candidate has not reached. -/
  ticket_later : ∀ c v T, (t.nodes c).currentTerm < T →
    tickets t.network c v T = 0
  /-- A granted vote in flight is recorded. -/
  grant_vote : ∀ m ∈ t.network, m.body = .voteResponse true →
    t.voted m.senderID m.term = some m.targetID
  /-- A leader was elected by a majority of recorded votes. -/
  elected_quorum : ∀ T c, t.ledger.elected T = some c →
    ∃ Q : Finset (Fin N), N < 2 * Q.card ∧ ∀ v ∈ Q, t.voted v T = some c
  elected_le : ∀ T c, t.ledger.elected T = some c → T ≤ (t.nodes c).currentTerm
  /-- A node elected in its current term is a candidate no more. -/
  elected_role : ∀ c, t.ledger.elected (t.nodes c).currentTerm = some c →
    (t.nodes c).role ≠ .candidate
  /-- A leader is the one elected in its term. -/
  leader_elected : ∀ c, (t.nodes c).role = .leader →
    t.ledger.elected (t.nodes c).currentTerm = some c

/-- A candidate receives a vote of its term and counts it. -/
abbrev CountsVote (old : RaftNode N K V) (inp : Input N K V) (new : RaftNode N K V)
    (m : Message N K V) : Prop :=
  inp = .receive m ∧ m.body = .voteResponse true ∧ old.role = .candidate ∧
    m.term = old.currentTerm ∧ new.currentTerm = old.currentTerm ∧ new.votes = old.votes + 1

section

variable (h : VoteMove self old inp new out)

include h

/-- A vote is not taken back in its term. -/
lemma VoteMove.vote_stays (hterm : new.currentTerm = old.currentTerm) (hc : old.votedFor = some c) :
    new.votedFor = some c := by
  cases h with
  | quiet _ hvote | count _ _ _ _ _ _ hvote => rw [hvote, hc]
  | raise | elect => omega
  | grant m a b _ _ _ hm hfree hvote =>
    rcases hfree (by omega) with h | h
    · simp [hc] at h
    · rw [hvote, ← h, hc]

/-- A candidate was one before and has counted nothing, has just stood, or counts a vote. -/
lemma VoteMove.candidate_cases (hc : new.role = .candidate) :
    (old.role = .candidate ∧ new.currentTerm = old.currentTerm ∧ new.votes = old.votes) ∨
    (new.currentTerm = old.currentTerm + 1 ∧ new.votedFor = some self ∧ new.votes = 1) ∨
    ∃ m, CountsVote old inp new m := by
  cases h with
  | quiet hterm _ hvotes hrole =>
    rcases hrole with hr | hr
    · exact .inl ⟨hr ▸ hc, hterm, hvotes⟩
    · simp [hr] at hc
  | raise _ _ _ hrole => simp [hrole] at hc
  | elect _ _ hterm hvote hvotes => exact .inr (.inl ⟨hterm, hvote, hvotes⟩)
  | grant _ _ _ _ _ _ hterm _ _ hvotes hrole =>
    rcases hrole with ⟨hr, hs⟩ | hr
    · exact .inl ⟨hr ▸ hc, hterm.trans hs.symm, hvotes⟩
    · simp [hr] at hc
  | count m hinp hbody hcand hmterm hterm _ hvotes =>
    exact .inr (.inr ⟨m, hinp, hbody, hcand, hmterm, hterm, hvotes⟩)

lemma VoteMove.of_candidate (hc : new.role = .candidate) :
    (old.role = .candidate ∧ new.currentTerm = old.currentTerm) ∨
      new.currentTerm = old.currentTerm + 1 := by
  rcases h.candidate_cases hc with ⟨hold, hterm, -⟩ | ⟨hterm, -⟩ | ⟨_, -, -, hold, -, hterm, -⟩
  · exact .inl ⟨hold, hterm⟩
  · exact .inr hterm
  · exact .inl ⟨hold, hterm⟩

section

variable (hl : new.role = .leader)

include hl

/-- A leader was one before, or a vote has given it a majority. -/
lemma VoteMove.leader_cases :
    (old.role = .leader ∧ new.currentTerm = old.currentTerm) ∨
    ∃ m, CountsVote old inp new m ∧ majority self ≤ new.votes := by
  cases h with
  | quiet hterm _ _ hrole =>
    rcases hrole with h | h
    · exact .inl ⟨h ▸ hl, hterm⟩
    · simp [h] at hl
  | raise _ _ _ hrole | elect _ _ _ _ _ hrole => simp [hrole] at hl
  | grant m _ _ _ _ _ hterm _ _ _ hrole =>
    rcases hrole with ⟨h, hs⟩ | h
    · exact .inl ⟨h ▸ hl, hterm.trans hs.symm⟩
    · simp [h] at hl
  | count m hinp hbody hcand hmterm hterm _ hvotes hrole =>
    rcases hrole with h | ⟨-, hmaj⟩
    · simp [h] at hl
    · exact .inr ⟨m, ⟨hinp, hbody, hcand, hmterm, hterm, hvotes⟩, hmaj⟩

/-- A new leader has just counted the last vote of a majority. -/
lemma VoteMove.of_leader (ho : old.role ≠ .leader) :
    ∃ m, CountsVote old inp new m ∧ majority self ≤ new.votes :=
  (h.leader_cases hl).resolve_left fun h => ho h.1

lemma VoteMove.leader_term (ho : old.role = .leader) : new.currentTerm = old.currentTerm := by
  rcases h.leader_cases hl with ⟨-, hterm⟩ | ⟨m, ⟨-, -, hcand, -⟩, -⟩
  · exact hterm
  · simp [ho] at hcand

end

end

section step

variable {t : Trace N K V} {a : Action N K V} {n : Fin N} {inp : Input N K V}

section response

variable (hI : ElectInv t) (h : t.input a = some (n, .receive m))
  (hbody : m.body = .voteResponse true)

include hI h hbody

/-- A vote that arrives has not been counted yet. -/
lemma ElectInv.sender_not_counted (hcand : (t.nodes n).role = .candidate)
    (hmterm : m.term = (t.nodes n).currentTerm) : m.senderID ∉ t.counted n := by
  intro hin
  have htarget := (Cluster.mem_of_input_receive h).2
  have hle := hI.ticket n m.senderID m.term
  rw [if_pos ⟨hcand, hmterm, hin⟩, ← tickets_receive h, if_pos] at hle
  · omega
  · simp [Message.ticket, hbody, htarget]

/-- A vote that arrives is a recorded one. -/
lemma ElectInv.vote_of_response (hmterm : m.term = (t.nodes n).currentTerm) :
    t.voted m.senderID (t.nodes n).currentTerm = some n := by
  obtain ⟨hmem, htarget⟩ := Cluster.mem_of_input_receive h
  rw [← hmterm, ← htarget]
  exact hI.grant_vote m hmem hbody

/-- The voters of a new leader are a majority. -/
lemma ElectInv.win_card (hcand : (t.nodes n).role = .candidate)
    (hmterm : m.term = (t.nodes n).currentTerm) (hmaj : majority n ≤ (t.nodes n).votes + 1) :
    N < 2 * (insert m.senderID (t.counted n)).card := by
  refine lt_two_mul_of_majority_le (show majority n ≤ _ from ?_)
  rw [Finset.card_insert_of_notMem (hI.sender_not_counted h hbody hcand hmterm),
    ← hI.votes_eq n hcand]
  exact hmaj

end response

/-- Two majorities do not vote for different nodes. -/
lemma eq_of_quorums (voted : Fin N → Option (Fin N)) {c' : Fin N} {Q Q' : Finset (Fin N)}
    (hQ : N < 2 * Q.card) (hv : ∀ v ∈ Q, voted v = some c) (hQ' : N < 2 * Q'.card)
    (hv' : ∀ v ∈ Q', voted v = some c') : c = c' := by
  obtain ⟨v, h, h'⟩ := Ledger.exists_mem_of_majorities (A := Q) (B := Q')
    (by simpa using hQ) (by simpa using hQ')
  have := hv v h
  rw [hv' v h'] at this
  exact (Option.some.inj this).symm

/-- A recorded leader was recorded before, or has just become one. -/
lemma elected_step_cases (h : t.input a = some (n, inp))
    (hT : (t.step a).ledger.elected T = some c) :
    t.ledger.elected T = some c ∨ (c = n ∧ T = (t.after n inp).currentTerm ∧
      (t.after n inp).role = .leader ∧ (t.nodes n).role ≠ .leader) := by
  rw [Trace.step_ledger h, (Trace.recordLedger_spec ..).1] at hT
  split_ifs at hT with hw
  · by_cases hTT : T = (t.after n inp).currentTerm
    · rw [hTT, update_self] at hT
      exact .inr ⟨(Option.some.inj hT).symm, hTT, hw.1, hw.2⟩
    · rw [update_of_ne hTT] at hT
      exact .inl hT
  · exact .inl hT

/-- Whether `c` is a candidate of term `T` that has counted the vote of `v`, as a number. -/
def countedTicket (t : Trace N K V) (c v : Fin N) (T : ℕ) : ℕ :=
  if (t.nodes c).role = .candidate ∧ T = (t.nodes c).currentTerm ∧
    v ∈ t.counted c then 1 else 0

lemma countedTicket_le_one (t : Trace N K V) (c v : Fin N) (T : ℕ) : countedTicket t c v T ≤ 1 := by
  unfold countedTicket
  split_ifs <;> omega

lemma countedTicket_of_role (hr : (t.nodes c).role = .follower) (v : Fin N) (T : ℕ) :
    countedTicket t c v T = 0 := by
  unfold countedTicket
  rw [hr, if_neg (by simp)]

lemma countedTicket_congr {t' : Trace N K V} (hr : (t'.nodes c).role = (t.nodes c).role)
    (hterm : (t'.nodes c).currentTerm = (t.nodes c).currentTerm)
    (hc : t'.counted c = t.counted c) (v : Fin N) (T : ℕ) :
    countedTicket t' c v T = countedTicket t c v T := by
  unfold countedTicket
  rw [hr, hterm, hc]

/-- Counting a voter adds no ticket of another one. -/
lemma countedTicket_insert_le {t' : Trace N K V} {u : Fin N} (hcand : (t.nodes c).role = .candidate)
    (hterm : (t'.nodes c).currentTerm = (t.nodes c).currentTerm)
    (hc : t'.counted c = insert u (t.counted c)) {v : Fin N}
    (hvT : ¬ (T = (t.nodes c).currentTerm ∧ v = u)) :
    countedTicket t' c v T ≤ countedTicket t c v T := by
  unfold countedTicket
  rw [hc, hterm]
  split_ifs with hnew hb
  · exact le_rfl
  · obtain ⟨-, hT, hv⟩ := hnew
    rcases Finset.mem_insert.mp hv with hv | hv
    · exact absurd ⟨hT, hv⟩ hvT
    · exact absurd ⟨hcand, hT, hv⟩ hb
  · exact zero_le_one
  · exact le_rfl

/-- A step adds tickets of the acting node only, one to each voter. -/
lemma tickets_step_le (h : t.input a = some (n, inp)) (c v : Fin N) (T : ℕ) :
    tickets (t.step a).network c v T ≤ tickets t.network c v T +
      if c = n ∧ T = (t.after n inp).currentTerm then 1 else 0 := by
  have hrem := tickets_remaining_le (c := c) (v := v) (T := T) t.cluster a
  rw [Trace.step_network h, tickets_append]
  cases t.voteMove n inp with
  | quiet _ _ _ _ hout | raise _ _ _ _ hout => rw [tickets_eq_zero hout]; omega
  | elect i j _ _ _ _ hout =>
    have hle := tickets_requests_le (c := c) (v := v) (T := T) (K := K) (V := V) n i j
      (t.after n inp).currentTerm
    rw [← hout] at hle
    split_ifs at hle ⊢ <;> omega
  | grant m i j hinp hbody _ _ _ _ _ _ hout =>
    subst hinp
    rw [hout, ← tickets_append, tickets_grant h hbody]
    exact Nat.le_add_right _ _
  | count m _ _ _ _ _ _ _ _ hout =>
    rw [hout]
    exact hrem.trans (Nat.le_add_right _ _)

section acting

variable (hI : ElectInv t) (h : t.input a = some (n, inp))

include hI h

/-- Recorded votes stay. -/
lemma ElectInv.voted_mono {v : Fin N} (hv : t.voted v T = some c) :
    (t.step a).voted v T = some c := by
  have hm := t.voteMove n inp
  rw [Trace.step_voted h]
  unfold Trace.recordVoted
  split_ifs with hc
  · obtain ⟨rfl, rfl⟩ := hc
    rcases hm.term_le.lt_or_eq with hlt | heq
    · simp [hI.voted_later _ _ hlt] at hv
    · rw [← heq, hI.voted_cur] at hv
      exact hm.vote_stays heq.symm hv
  · exact hv

/-- A new leader has a majority of recorded votes. -/
lemma ElectInv.win_quorum (hl : (t.after n inp).role = .leader) (ho : (t.nodes n).role ≠ .leader) :
    ∃ Q : Finset (Fin N), N < 2 * Q.card ∧
      ∀ v ∈ Q, (t.step a).voted v (t.after n inp).currentTerm = some n := by
  obtain ⟨m, ⟨rfl, hbody, hcand, hmterm, hterm, hvotes⟩, hmaj⟩ :=
    (t.voteMove n inp).of_leader hl ho
  refine ⟨insert m.senderID (t.counted n),
    hI.win_card h hbody hcand hmterm (hvotes ▸ hmaj), fun v hv => hI.voted_mono h ?_⟩
  rw [hterm]
  rcases Finset.mem_insert.mp hv with rfl | hv
  · exact hI.vote_of_response h hbody hmterm
  · exact hI.counted_vote n hcand v hv

/-- A node becomes leader of a term that has none. -/
lemma ElectInv.not_elected (hl : (t.after n inp).role = .leader) (ho : (t.nodes n).role ≠ .leader) :
    t.ledger.elected (t.after n inp).currentTerm = none := by
  by_contra hne
  obtain ⟨c, hc⟩ := Option.ne_none_iff_exists'.mp hne
  obtain ⟨Q, hQ, hv⟩ := hI.win_quorum h hl ho
  obtain ⟨Q', hQ', hv'⟩ := hI.elected_quorum _ c hc
  have hcn : c = n := eq_of_quorums (fun v => (t.step a).voted v _) hQ'
    (fun v hv'' => hI.voted_mono h (hv' v hv'')) hQ hv
  obtain ⟨m, ⟨-, -, hcand, -, hterm, -⟩, -⟩ := (t.voteMove n inp).of_leader hl ho
  rw [hcn, hterm] at hc
  exact hI.elected_role n hc hcand

/-- Recorded leaders stay. -/
lemma ElectInv.elected_mono (hT : t.ledger.elected T = some c) :
    (t.step a).ledger.elected T = some c := by
  rw [Trace.step_ledger h, (Trace.recordLedger_spec ..).1]
  split_ifs with hw
  · by_cases hTT : T = (t.after n inp).currentTerm
    · simp [hTT, hI.not_elected h hw.1 hw.2] at hT
    · rwa [update_of_ne hTT]
  · exact hT

/-- A candidate's own records after a step of it: the votes counted are recorded votes, and the
counter is their number. -/
lemma ElectInv.votes_step (hc : (t.after n inp).role = .candidate) :
    (∀ v ∈ (t.step a).counted n, (t.step a).voted v (t.after n inp).currentTerm = some n) ∧
    (t.after n inp).votes = ((t.step a).counted n).card := by
  rw [Trace.step_counted_self h]
  -- a node that stays a candidate in its term keeps its voters
  have keep : (t.nodes n).role = .candidate →
      (t.after n inp).currentTerm = (t.nodes n).currentTerm →
      ∀ v ∈ t.counted n, (t.step a).voted v (t.after n inp).currentTerm = some n := by
    intro hcand hterm v hv
    rw [hterm]
    exact hI.voted_mono h (hI.counted_vote n hcand v hv)
  rcases (t.voteMove n inp).candidate_cases hc with ⟨hcand, hterm, hvotes⟩ |
    ⟨hterm, hvote, hvotes⟩ | ⟨m, rfl, hbody, hcand, hmterm, hterm, hvotes⟩
  · rw [Trace.recordCounted_keep hterm hvotes]
    exact ⟨keep hcand hterm, hvotes.trans (hI.votes_eq n hcand)⟩
  · rw [Trace.recordCounted_stand hterm hc]
    refine ⟨fun v hv => ?_, by rw [hvotes, Finset.card_singleton]⟩
    rw [Finset.mem_singleton.mp hv, Trace.step_voted h, Trace.recordVoted, if_pos ⟨rfl, rfl⟩, hvote]
  · rw [Trace.recordCounted_count hterm hvotes]
    refine ⟨fun v hv => ?_, ?_⟩
    · rcases Finset.mem_insert.mp hv with rfl | hv
      · rw [hterm]
        exact hI.voted_mono h (hI.vote_of_response h hbody hmterm)
      · exact keep hcand hterm v hv
    · rw [Finset.card_insert_of_notMem (hI.sender_not_counted h hbody hcand hmterm),
        ← hI.votes_eq n hcand, hvotes]

/-- Tickets stay single when the acting node is the candidate. -/
lemma ElectInv.ticket_step_self (v : Fin N) (T : ℕ) :
    tickets (t.step a).network n v T + countedTicket (t.step a) n v T ≤ 1 := by
  have hold : _ + countedTicket t n v T ≤ 1 := hI.ticket n v T
  have hrem := tickets_remaining_le (c := n) (v := v) (T := T) t.cluster a
  have hnode := Trace.step_nodes_self h
  have hcount := Trace.step_counted_self h
  rw [Trace.step_network h, tickets_append]
  cases t.voteMove n inp with
  | quiet hterm _ hvotes hrole hout =>
    rw [tickets_eq_zero hout]
    rw [Trace.recordCounted_keep hterm hvotes] at hcount
    rcases hrole with hr | hr
    · rw [countedTicket_congr (hnode ▸ hr) (hnode ▸ hterm) hcount]
      omega
    · rw [countedTicket_of_role (hnode ▸ hr)]
      omega
  | raise _ _ _ hrole hout =>
    rw [tickets_eq_zero hout, countedTicket_of_role (hnode ▸ hrole)]
    omega
  | elect i j hterm _ _ hrole hout =>
    rw [Trace.recordCounted_stand hterm hrole] at hcount
    have hle := tickets_requests_le (c := n) (v := v) (T := T) (K := K) (V := V) n i j
      (t.after n inp).currentTerm
    rw [← hout] at hle
    unfold countedTicket
    simp only [hnode, hcount, Finset.mem_singleton]
    by_cases hT : T = (t.after n inp).currentTerm
    · -- the term is new, so there is no ticket of it yet
      have hz := hI.ticket_later n v T (by omega)
      by_cases hv : v = n
      · rw [if_neg (by simp [hv])] at hle
        split_ifs <;> omega
      · rw [if_neg (by simp [hv])]
        split_ifs at hle <;> omega
    · rw [if_neg (by simp [hT])] at hle
      rw [if_neg (by simp [hT])]
      omega
  | grant m i j hinp hbody _ hterm _ _ hvotes hrole hout =>
    subst hinp
    have hnet := tickets_grant (c := n) (v := v) (T := T) h hbody
    rw [tickets_append, ← hout] at hnet
    rw [hnet]
    rcases hrole with ⟨hr, hs⟩ | hr
    · rw [Trace.recordCounted_keep (hterm.trans hs.symm) hvotes] at hcount
      rwa [countedTicket_congr (hnode ▸ hr) (hnode ▸ hterm.trans hs.symm) hcount]
    · rw [countedTicket_of_role (hnode ▸ hr)]
      omega
  | count m hinp hbody hcand hmterm hterm _ hvotes hrole hout =>
    subst hinp
    rw [Trace.recordCounted_count hterm hvotes] at hcount
    have hrec := tickets_receive (c := n) (v := v) (T := T) h
    have htarget := (Cluster.mem_of_input_receive h).2
    have hnil : tickets ([] : List (Message N K V)) n v T = 0 := rfl
    rw [hout]
    by_cases hvT : T = (t.nodes n).currentTerm ∧ v = m.senderID
    · -- the ticket received becomes the ticket counted
      have hone : m.ticket n v T = true := by
        simp [Message.ticket, hbody, htarget, hvT, hmterm]
      rw [if_pos hone] at hrec
      have := countedTicket_le_one (t.step a) n v T
      omega
    · have hle := countedTicket_insert_le hcand (hnode ▸ hterm) hcount hvT
      omega

lemma ElectInv.ticket_later_step (c v : Fin N) (T : ℕ) (hT : ((t.step a).nodes c).currentTerm < T) :
    tickets (t.step a).network c v T = 0 := by
  have hle := tickets_step_le h c v T
  by_cases hc : c = n
  · subst hc
    rw [Trace.step_nodes_self h] at hT
    have hz := hI.ticket_later c v T ((t.voteMove c inp).term_le.trans_lt hT)
    rw [if_neg fun h => hT.ne h.2.symm] at hle
    omega
  · rw [Trace.step_nodes_of_ne h hc] at hT
    rw [if_neg fun h => hc h.1, hI.ticket_later c v T hT] at hle
    exact Nat.le_zero.mp hle

/-- Votes in flight after a step are recorded. -/
lemma ElectInv.grant_vote_step (m : Message N K V) (hmem : m ∈ (t.step a).network)
    (hbody : m.body = .voteResponse true) :
    (t.step a).voted m.senderID m.term = some m.targetID := by
  rcases Trace.mem_network_step h hmem with hmem | hmem
  · exact hI.voted_mono h (hI.grant_vote m hmem hbody)
  have hballot : m.isBallot = true := by simp [Message.isBallot, hbody]
  rcases (t.voteMove n inp).ballot_cases hmem hballot with
    ⟨_, _, _, rfl, -⟩ | ⟨m', _, _, rfl, -, -, -, hterm, hvote, -⟩
  · cases hbody
  · rw [Trace.step_voted h, Trace.recordVoted, if_pos ⟨rfl, hterm.symm⟩, hvote]

lemma ElectInv.elected_role_step
    (hel : (t.step a).ledger.elected (t.after n inp).currentTerm = some n) :
    (t.after n inp).role ≠ .candidate := by
  intro hc
  rcases elected_step_cases h hel with hold | ⟨-, -, hl, -⟩
  · have hle := hI.elected_le _ _ hold
    rcases (t.voteMove n inp).of_candidate hc with ⟨hcand, hterm⟩ | hterm
    · rw [hterm] at hold
      exact hI.elected_role n hold hcand
    · omega
  · simp [hl] at hc

/-- A leader after a step is recorded. -/
lemma ElectInv.leader_elected_step (hl : (t.after n inp).role = .leader) :
    (t.step a).ledger.elected (t.after n inp).currentTerm = some n := by
  by_cases ho : (t.nodes n).role = .leader
  · have hterm := (t.voteMove n inp).leader_term hl ho
    rw [hterm]
    exact hI.elected_mono h (hI.leader_elected n ho)
  · rw [Trace.step_ledger h, (Trace.recordLedger_spec ..).1, if_pos ⟨hl, ho⟩, update_self]

end acting

/-- No term goes down in a step. -/
lemma step_term_le (h : t.input a = some (n, inp)) (v : Fin N) :
    (t.nodes v).currentTerm ≤ ((t.step a).nodes v).currentTerm :=
  Trace.forall_nodes_step h (t.voteMove n inp).term_le (fun _ _ => le_rfl) v

/-- **One step keeps the election invariant.** -/
theorem electInv_step (hI : ElectInv t) (a : Action N K V) : ElectInv (t.step a) := by
  cases h : t.input a with
  | none =>
    rw [Trace.step_of_input_none h]
    have hle := fun c v T => tickets_remaining_le (c := c) (v := v) (T := T) t.cluster a
    exact { hI with
      ticket := fun c v T => (Nat.add_le_add_right (hle c v T) _).trans (hI.ticket c v T)
      ticket_later := fun c v T hT => Nat.le_zero.mp (hI.ticket_later c v T hT ▸ hle c v T)
      grant_vote := fun m hm => hI.grant_vote m (Cluster.mem_of_mem_remaining hm) }
  | some r =>
    obtain ⟨n, inp⟩ := r
    have hm := t.voteMove n inp
    constructor
    case voted_cur =>
      refine fun v => Trace.forall_nodes_step h ?_ (fun v hv => ?_) v
      · rw [Trace.step_voted h, Trace.recordVoted, if_pos ⟨rfl, rfl⟩]
      · rw [Trace.step_voted h, Trace.recordVoted, if_neg fun hc => hv hc.1]
        exact hI.voted_cur v
    case voted_later =>
      refine fun v => Trace.forall_nodes_step h ?_ ?_ v
      · intro T hT
        rw [Trace.step_voted h, Trace.recordVoted, if_neg fun hc => hT.ne hc.2.symm]
        exact hI.voted_later n T (hm.term_le.trans_lt hT)
      · intro v hv T hT
        rw [Trace.step_voted h, Trace.recordVoted, if_neg fun hc => hv hc.1]
        exact hI.voted_later v T hT
    case counted_vote =>
      refine fun c => Trace.forall_nodes_step h ?_ ?_ c
      · exact fun hc => (hI.votes_step h hc).1
      · intro c hcn hc v hv
        rw [Trace.step_counted_of_ne h hcn] at hv
        exact hI.voted_mono h (hI.counted_vote c hc v hv)
    case votes_eq =>
      refine fun c => Trace.forall_nodes_step h ?_ ?_ c
      · exact fun hc => (hI.votes_step h hc).2
      · intro c hcn hc
        rw [Trace.step_counted_of_ne h hcn]
        exact hI.votes_eq c hc
    case ticket =>
      intro c v T
      by_cases hcn : c = n
      · subst hcn
        exact hI.ticket_step_self h v T
      rw [Trace.step_nodes_of_ne h hcn, Trace.step_counted_of_ne h hcn]
      have hle := tickets_step_le h c v T
      rw [if_neg fun h => hcn h.1] at hle
      exact (Nat.add_le_add_right hle _).trans (hI.ticket c v T)
    case ticket_later => exact fun c v T => hI.ticket_later_step h c v T
    case grant_vote => exact hI.grant_vote_step h
    case elected_quorum =>
      intro T c hT
      rcases elected_step_cases h hT with hold | ⟨rfl, rfl, hl, ho⟩
      · obtain ⟨Q, hQ, hv⟩ := hI.elected_quorum T c hold
        exact ⟨Q, hQ, fun v hvQ => hI.voted_mono h (hv v hvQ)⟩
      · exact hI.win_quorum h hl ho
    case elected_le =>
      intro T c hT
      rcases elected_step_cases h hT with hold | ⟨rfl, rfl, -⟩
      · exact (hI.elected_le T c hold).trans (step_term_le h c)
      · rw [Trace.step_nodes_self h]
    case elected_role =>
      refine fun c => Trace.forall_nodes_step h ?_ ?_ c
      · exact hI.elected_role_step h
      · intro c hcn hc
        rcases elected_step_cases h hc with hold | ⟨hcn', -⟩
        · exact hI.elected_role c hold
        · exact absurd hcn' hcn
    case leader_elected =>
      refine fun c => Trace.forall_nodes_step h ?_ ?_ c
      · exact hI.leader_elected_step h
      · exact fun c _ hc => hI.elected_mono h (hI.leader_elected c hc)

end step

/-! ### Runs -/

lemma electInv_init : ElectInv (Trace.init : Trace N K V) where
  voted_cur _ := rfl
  voted_later _ _ _ := rfl
  counted_vote _ h := by cases h
  votes_eq _ h := by cases h
  ticket _ _ _ := by simp [Trace.init, Cluster.init, tickets, RaftNode.new]
  ticket_later _ _ _ _ := rfl
  grant_vote _ h := absurd h not_mem_nil
  elected_quorum _ _ h := by cases h
  elected_le _ _ h := by cases h
  elected_role _ h := by cases h
  leader_elected _ h := by cases h

/-- The invariant holds in every run. -/
lemma electInv_run (as : List (Action N K V)) : ElectInv (run Trace.step Trace.init as) :=
  run_invariant' ElectInv (fun _ a h => electInv_step h a) as electInv_init

/-- A recorded leader stays recorded. -/
lemma elected_run (hI : ElectInv t) (as : List (Action N K V)) (hT : t.ledger.elected T = some c) :
    (run Trace.step t as).ledger.elected T = some c := by
  refine (run_invariant' (fun t => ElectInv t ∧ t.ledger.elected T = some c)
    (fun t a ht => ⟨electInv_step ht.1 a, ?_⟩) as ⟨hI, hT⟩).2
  cases h : t.input a with
  | none => rw [Trace.step_of_input_none h]; exact ht.2
  | some => exact ht.1.elected_mono h ht.2

/-- The instance behind the node literals of a cluster of three. It is named, so that a literal is
the same term in every concrete run, and not one that holds a proof of its own definition. -/
instance instNeZeroThree : NeZero 3 := ⟨by decide⟩

/-- Node `0` of three is elected in term `1` with the vote of node `1`. -/
def electFirst : List (Action 3 ℕ ℕ) := [.tick 0 (.elect true), .deliver 0, .deliver 1]

/-- **Election safety.** Whatever the cluster size and the schedule, a leader in some state of a
run and a leader of the same term in that state or a later one are the same node. -/
theorem election_safety (as bs : List (Action N K V)) (c c' : Fin N)
    (hl : ((run Cluster.step Cluster.init as).nodes c).role = .leader)
    (hl' : ((run Cluster.step Cluster.init (as ++ bs)).nodes c').role = .leader)
    (hterm : ((run Cluster.step Cluster.init as).nodes c).currentTerm =
      ((run Cluster.step Cluster.init (as ++ bs)).nodes c').currentTerm) : c = c' := by
  simp only [← Trace.run_init_cluster] at hl hl' hterm
  have hc := (electInv_run as).leader_elected c hl
  have hc' := (electInv_run (as ++ bs)).leader_elected c' hl'
  have hlater := elected_run (electInv_run as) bs hc
  rw [← run_append, hterm, hc'] at hlater
  exact (Option.some.inj hlater).symm

/-- A three-node cluster elects node `0` with the vote of node `1`; at the first heartbeat it
still is the leader of that term. -/
theorem election_safety_elected :
    ((run Cluster.step (Cluster.init : Cluster 3 ℕ ℕ) electFirst).nodes 0).role = .leader ∧
      (0 : Fin 3) = 0 :=
  ⟨by decide +kernel, election_safety electFirst [.tick 0 .beat] 0 0 (by decide +kernel)
    (by decide +kernel) (by decide +kernel)⟩

end Replication.Raft
