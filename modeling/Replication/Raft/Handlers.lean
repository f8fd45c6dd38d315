import Replication.Raft.Cluster

/-!
# Raft · Handlers: what one step of a node can do

The handlers of `Node.lean` are unfolded here and nowhere else.

* Frame equations: `applyRounds_eq`, `commitTo_eq`, `advanceCommitLocked_cases` say that applying
  and committing touch the commit index, the applied index and the store only; the `follow_*`
  lemmas say what following a sender changes.
-/

set_option linter.unusedSectionVars false

namespace Replication.Raft

open Storage Log Node Library

variable {N : ℕ} {K V : Type} [DecidableEq K] [Inhabited V] {m : Message N K V} {p sender : Fin N}
  {term : ℕ} {new : RaftNode N K V} {out : List (Message N K V)}

/-! ### Peers and majorities -/

@[simp] lemma mem_peers {self : Fin N} : p ∈ peers self ↔ p ≠ self := by
  simp [peers]

lemma peers_nodup (self : Fin N) : (peers self).Nodup :=
  (List.nodup_finRange N).filter _

/-- A cluster is a node and its peers. -/
lemma length_peers (self : Fin N) : (peers self).length + 1 = N := by
  have h : peers self = (List.finRange N).erase self := by
    rw [(List.nodup_finRange N).erase_eq_filter, peers]
    congr 1
    funext p
    by_cases hp : p = self <;> simp [hp]
  rw [h, List.length_erase_of_mem (List.mem_finRange self), List.length_finRange]
  have := self.pos
  omega

/-- What reaches `majority` is more than half of the nodes. -/
lemma lt_two_mul_of_majority_le {self : Fin N} {k : ℕ} (h : majority self ≤ k) : N < 2 * k := by
  unfold majority at h
  rw [length_peers] at h
  omega

namespace RaftNode

/-! ### Applying and committing -/

/-- Applying changes the store and the applied index only. -/
lemma applyRounds_eq (k : ℕ) (n : RaftNode N K V) :
    ∃ st a, applyRounds k n = { n with store := st, applied := a } := by
  induction k generalizing n with
  | zero => exact ⟨n.store, n.applied, rfl⟩
  | succ k ih =>
    unfold applyRounds
    cases n.log.get (n.applied + 1) with
    | none => exact ⟨n.store, n.applied, rfl⟩
    | some => exact ih _

/-- Committing changes the commit index, the store and the applied index only. -/
lemma commitTo_eq (n : RaftNode N K V) (idx : ℕ) :
    ∃ st a, n.commitTo idx =
      { n with log := n.log.setCommitIndex idx, store := st, applied := a } :=
  applyRounds_eq (idx - n.applied) { n with log := n.log.setCommitIndex idx }

/-- The loop stops at the highest index that can be committed, or changes nothing. -/
lemma advanceFrom_cases (self : Fin N) (n : RaftNode N K V) (k : ℕ) :
    advanceFrom self n k = n ∨ ∃ idx, n.log.commitIndex < idx ∧ idx ≤ n.log.commitIndex + k ∧
      n.log.termAt idx = n.currentTerm ∧ majority self ≤ n.replicaCount self idx ∧
      advanceFrom self n k = n.commitTo idx := by
  induction k with
  | zero => exact .inl rfl
  | succ k ih =>
    dsimp only [advanceFrom]
    split_ifs with ht hm
    · exact ih.imp_right fun ⟨idx, h₁, h₂, h₃⟩ => ⟨idx, h₁, by omega, h₃⟩
    · exact .inr ⟨_, by omega, le_rfl, not_not.mp ht, hm, rfl⟩
    · exact ih.imp_right fun ⟨idx, h₁, h₂, h₃⟩ => ⟨idx, h₁, by omega, h₃⟩

/-- The leader leaves the commit index or raises it to an index of its own term that a majority
is known to hold. -/
lemma advanceCommitLocked_cases (self : Fin N) (n : RaftNode N K V) :
    advanceCommitLocked self n = n ∨ ∃ idx, n.log.commitIndex < idx ∧ idx ≤ n.log.lastIndex ∧
      n.log.termAt idx = n.currentTerm ∧ majority self ≤ n.replicaCount self idx ∧
      advanceCommitLocked self n = n.commitTo idx := by
  rcases advanceFrom_cases self n (n.log.lastIndex - n.log.commitIndex) with h | h
  · exact .inl h
  · obtain ⟨idx, h₁, h₂, h₃⟩ := h
    exact .inr ⟨idx, h₁, by omega, h₃⟩

/-! ### Following a sender -/

section follow

variable (n : RaftNode N K V) (sender : Fin N) (term : ℕ)

@[simp] lemma follow_role : (n.follow sender term).role = .follower := by
  dsimp only [follow]
  split_ifs <;> rfl

@[simp] lemma follow_votes : (n.follow sender term).votes = n.votes := by
  dsimp only [follow, stepDownLocked]
  split_ifs <;> rfl

@[simp] lemma follow_log : (n.follow sender term).log = n.log := by
  dsimp only [follow, stepDownLocked]
  split_ifs <;> rfl

@[simp] lemma follow_store : (n.follow sender term).store = n.store := by
  dsimp only [follow, stepDownLocked]
  split_ifs <;> rfl

@[simp] lemma follow_applied : (n.follow sender term).applied = n.applied := by
  dsimp only [follow, stepDownLocked]
  split_ifs <;> rfl

@[simp] lemma follow_discarded : (n.follow sender term).discarded = n.discarded := by
  dsimp only [follow, stepDownLocked]
  split_ifs <;> rfl

variable {n term}

lemma follow_currentTerm (h : n.currentTerm ≤ term) :
    (n.follow sender term).currentTerm = term := by
  dsimp only [follow, stepDownLocked]
  split_ifs <;> first | rfl | (dsimp only; omega)

lemma follow_votedFor : (n.follow sender term).votedFor =
    if n.currentTerm < term then none else n.votedFor := by
  dsimp only [follow, stepDownLocked]
  split_ifs <;> rfl

end follow

/-! ### The outcomes of the handlers -/

/-- The node in a message's term: a later term is taken over. -/
def raised (n : RaftNode N K V) (term : ℕ) : RaftNode N K V :=
  if n.currentTerm < term then n.stepDownLocked term else n

/-- The accepting half of `handleAppendEntries`: append, then commit and apply. -/
def accept (n : RaftNode N K V) (p : ℕ) (es : List (Entry N K V)) (lc : ℕ) : RaftNode N K V :=
  if (n.log.appendAfter p es).1.commitIndex < lc then
    { n with log := (n.log.appendAfter p es).1 }.commitTo
      (min lc (n.log.appendAfter p es).1.lastIndex)
  else { n with log := (n.log.appendAfter p es).1 }

/-- The installing half of `handleInstallSnap`. -/
def install (n : RaftNode N K V) (i t : ℕ) (snap : K → Option (KVEntry (Fin N) K V))
    (inc : List (Entry N K V)) : RaftNode N K V :=
  if n.log.snapshotIndex < i then
    { n with
      store := n.store.restoreSnapshot snap
      log := n.log.installSnapshot i t
      applied := if n.applied < i then i else n.applied
      discarded := inc }
  else n

/-- The node after the compaction of what it has applied. -/
def compacted (n : RaftNode N K V) : RaftNode N K V :=
  { n with
    log := n.log.compact n.applied (n.log.termAt n.applied)
    discarded := n.discarded ++ n.log.entries.take
      ((n.log.compact n.applied (n.log.termAt n.applied)).snapshotIndex - n.log.snapshotIndex) }

/-- The peer needs entries that have been compacted: `sendAppend` ships a snapshot. -/
def lags (n : RaftNode N K V) (peer : Fin N) : Bool :=
  (if n.nextIndex peer = 0 then 1 else n.nextIndex peer) - 1 < n.log.snapshotIndex

/-- The leader with the entry of a client call appended. -/
def proposed (self : Fin N) (n : RaftNode N K V) (op : ClientOp K V) (ts : ℤ) : RaftNode N K V :=
  { n with
    log := (n.log.append (n.proposal self op.key op.value op.op ts)).1
    matchIndex := Function.update n.matchIndex self n.log.nextIndex }

/-- The node with an acknowledgement of index `k` recorded. -/
def acknowledged (n : RaftNode N K V) (sender : Fin N) (k : ℕ) : RaftNode N K V :=
  { n with
    matchIndex := Function.update n.matchIndex sender k
    nextIndex := Function.update n.nextIndex sender (k + 1) }

variable (self : Fin N) (n : RaftNode N K V)

section accept

variable (p : ℕ) (es : List (Entry N K V)) (lc : ℕ)

/-- Accepting changes the log, the store and the applied index only; the log is the appended
one up to its commit index. -/
lemma accept_eq : ∃ st a c, n.accept p es lc =
    { n with
      log := { (n.log.appendAfter p es).1 with commitIndex := c }, store := st, applied := a } := by
  unfold accept
  split_ifs with h
  · obtain ⟨st, a, hc⟩ := commitTo_eq { n with log := (n.log.appendAfter p es).1 }
      (min lc (n.log.appendAfter p es).1.lastIndex)
    rw [hc]
    dsimp only
    unfold ReplicationLog.setCommitIndex
    split_ifs
    · exact ⟨st, a, _, rfl⟩
    · exact ⟨st, a, _, rfl⟩
  · exact ⟨_, _, _, rfl⟩

lemma accept_lastIndex :
    (n.accept p es lc).log.lastIndex = (n.log.appendAfter p es).1.lastIndex := by
  obtain ⟨st, a, c, h⟩ := n.accept_eq p es lc
  rw [h]
  rfl

@[simp] lemma accept_role : (n.accept p es lc).role = n.role := by
  obtain ⟨st, a, c, h⟩ := n.accept_eq p es lc
  rw [h]

@[simp] lemma accept_currentTerm : (n.accept p es lc).currentTerm = n.currentTerm := by
  obtain ⟨st, a, c, h⟩ := n.accept_eq p es lc
  rw [h]

end accept

section install

variable (i t : ℕ) (snap : K → Option (KVEntry (Fin N) K V)) (inc : List (Entry N K V))

/-- Installing changes the store, the log, the applied index and the history only. -/
lemma install_eq : ∃ st l a d, n.install i t snap inc =
    { n with store := st, log := l, applied := a, discarded := d } := by
  unfold install
  split_ifs <;> exact ⟨_, _, _, _, rfl⟩

/-- A snapshot that is not above the boundary is not installed. -/
lemma install_follow_of_not_lt {n : RaftNode N K V} {i : ℕ} (h : ¬ n.log.snapshotIndex < i) :
    (n.follow sender term).install i t snap inc = n.follow sender term :=
  if_neg (by rwa [follow_log])

@[simp] lemma install_role : (n.install i t snap inc).role = n.role := by
  unfold install
  split_ifs <;> rfl

@[simp] lemma install_currentTerm : (n.install i t snap inc).currentTerm = n.currentTerm := by
  unfold install
  split_ifs <;> rfl

end install

/-- Counting an acknowledgement changes the match and next indices, the commit index, the store
and the applied index only. -/
lemma advance_acknowledged_eq (sender : Fin N) (k : ℕ) :
    ∃ st a c, advanceCommitLocked self (n.acknowledged sender k) =
      { n.acknowledged sender k with
        log := { n.log with commitIndex := c }, store := st, applied := a } := by
  rcases advanceCommitLocked_cases self (n.acknowledged sender k) with h | ⟨idx, -, -, -, -, h⟩
  · exact ⟨n.store, n.applied, n.log.commitIndex, h⟩
  obtain ⟨st, a, hc⟩ := commitTo_eq (n.acknowledged sender k) idx
  rw [h, hc]
  unfold ReplicationLog.setCommitIndex
  split_ifs
  · exact ⟨st, a, _, rfl⟩
  · exact ⟨st, a, _, rfl⟩

/-- An AppendEntries message that passes the check is accepted and acknowledged. -/
lemma handleAppendEntries_eq {p pt : ℕ} {es : List (Entry N K V)} {lc : ℕ}
    (hle : n.currentTerm ≤ term) (hm : n.log.matches p pt = true) :
    n.handleAppendEntries self sender term p pt es lc =
      ((n.follow sender term).accept p es lc,
        [ackMessage self sender term true
          ((n.follow sender term).accept p es lc).log.lastIndex]) := by
  dsimp only [handleAppendEntries]
  rw [if_neg (not_lt.mpr hle), if_neg (by simp [hm])]
  refine Prod.ext rfl ?_
  show [ackMessage self sender (n.follow sender term).currentTerm true _] = _
  rw [follow_currentTerm _ hle, accept_lastIndex]
  rfl

/-- A snapshot of a current term is installed and acknowledged. -/
lemma handleInstallSnap_eq {i t : ℕ} {snap : K → Option (KVEntry (Fin N) K V)}
    {inc : List (Entry N K V)} (hle : n.currentTerm ≤ term) :
    n.handleInstallSnap self sender term i t snap inc =
      ((n.follow sender term).install i t snap inc,
        [ackMessage self sender term true
          ((n.follow sender term).install i t snap inc).log.lastIndex]) := by
  dsimp only [handleInstallSnap]
  rw [if_neg (not_lt.mpr hle)]
  refine Prod.ext rfl ?_
  show [ackMessage self sender ((n.follow sender term).install i t snap inc).currentTerm true
    ((n.follow sender term).install i t snap inc).log.lastIndex] = _
  rw [install_currentTerm, follow_currentTerm _ hle]

/-- What `sendAppend` sends: the snapshot for a peer that lags, or the entries after an index
above the boundary. -/
lemma mem_sendAppend (h : m ∈ sendAppend self n p) :
    n.role = .leader ∧
      ((n.lags p = true ∧ m = sendSnapshot self p n.currentTerm n) ∨
      ∃ prev, n.log.snapshotIndex ≤ prev ∧ m = ⟨self, p, n.currentTerm, .appendEntries prev
        (n.log.termAt prev) (n.log.getFrom (prev + 1)) n.log.commitIndex⟩) := by
  unfold sendAppend at h
  by_cases hl : n.role = .leader
  · rw [if_neg (not_not.mpr hl)] at h
    refine ⟨hl, ?_⟩
    dsimp only at h
    obtain ⟨prev, hprev⟩ : ∃ prev, (if n.nextIndex p = 0 then 1 else n.nextIndex p) = prev + 1 := by
      split_ifs with h0
      · exact ⟨0, rfl⟩
      · exact ⟨n.nextIndex p - 1, by omega⟩
    rw [hprev, Nat.add_sub_cancel] at h
    split_ifs at h with hs
    · refine .inl ⟨?_, List.mem_singleton.mp h⟩
      rw [lags, hprev, Nat.add_sub_cancel]
      exact decide_eq_true hs
    · exact .inr ⟨prev, not_lt.mp hs, List.mem_singleton.mp h⟩
  · simp [if_pos hl] at h

/-- A heartbeat is what `sendAppend` has for the peers. -/
lemma mem_sendAppend_of_mem_maybeHeartbeat (h : m ∈ n.maybeHeartbeat self) :
    ∃ p, p ≠ self ∧ m ∈ sendAppend self n p := by
  unfold maybeHeartbeat at h
  split_ifs at h
  · obtain ⟨p, hp, hm⟩ := List.mem_flatMap.mp h
    exact ⟨p, mem_peers.mp hp, hm⟩
  · cases h

end RaftNode

/-! ### What a step can do -/

open RaftNode

/-- What a step can do: one constructor for each outcome of a handler, with the new node and the
messages it sends. -/
inductive Reaction (self : Fin N) (old : RaftNode N K V) :
    Input N K V → RaftNode N K V → List (Message N K V) → Prop
  | idle (inp : Input N K V) : Reaction self old inp old []
  | switch (t : Tick) (st : NodeState) : Reaction self old (.tick t) { old with state := st } []
  | elect (h : old.role ≠ .leader) : Reaction self old (.tick (.elect true))
      { old with
        currentTerm := old.currentTerm + 1, role := .candidate, votedFor := some self, votes := 1,
        raftLeader := none }
      ((peers self).map fun p => ⟨self, p, old.currentTerm + 1,
        .voteRequest old.log.lastIndexTerm.1 old.log.lastIndexTerm.2⟩)
  | beat (t : Tick) (k : ℕ) (ht : t = .beat ∨ t = .spawned) :
      Reaction self old (.tick t) { old with spawned := k } (old.maybeHeartbeat self)
  | compact (hlt : old.log.snapshotIndex < old.applied)
      (hterm : old.log.termAt old.applied ≠ 0) :
      Reaction self old (.tick .compact) old.compacted []
  | propose (op : ClientOp K V) (ts : ℤ) (hleader : old.role = .leader) :
      Reaction self old (.submit op ts) (old.proposed self op ts)
        ((peers self).flatMap (sendAppend self (old.proposed self op ts)))
  /-- A vote that the node is free to give, to a candidate whose log is up to date. -/
  | grant (m : Message N K V) (a b : ℕ) (hbody : m.body = .voteRequest a b)
      (hon : old.state.isPaused = false) (hle : old.currentTerm ≤ m.term)
      (hfree : old.currentTerm = m.term → old.votedFor = none ∨ old.votedFor = some m.senderID)
      (hup : old.upToDate a b = true) :
      Reaction self old (.receive m) { old.raised m.term with votedFor := some m.senderID }
        [⟨self, m.senderID, (old.raised m.term).currentTerm, .voteResponse true⟩]
  | refuse (m : Message N K V) (a b : ℕ) (hbody : m.body = .voteRequest a b)
      (hon : old.state.isPaused = false) :
      Reaction self old (.receive m) (old.raised m.term)
        [⟨self, m.senderID, (old.raised m.term).currentTerm, .voteResponse false⟩]
  | deposed (m : Message N K V) (g : Bool) (hbody : m.body = .voteResponse g)
      (hon : old.state.isPaused = false) (hlt : old.currentTerm < m.term) :
      Reaction self old (.receive m) (old.stepDownLocked m.term) []
  | vote (m : Message N K V) (hbody : m.body = .voteResponse true) (hcand : old.role = .candidate)
      (hterm : m.term = old.currentTerm) :
      Reaction self old (.receive m) { old with votes := old.votes + 1 } []
  | win (m : Message N K V) (hbody : m.body = .voteResponse true) (hcand : old.role = .candidate)
      (hterm : m.term = old.currentTerm) (hmaj : majority self ≤ old.votes + 1) :
      Reaction self old (.receive m) (becomeLeaderLocked self { old with votes := old.votes + 1 })
        []
  | outdated (m : Message N K V) : Reaction self old (.receive m) old
      [ackMessage self m.senderID old.currentTerm false 0]
  | mismatch (m : Message N K V) (k : ℕ) (hle : old.currentTerm ≤ m.term) :
      Reaction self old (.receive m) (old.follow m.senderID m.term)
        [ackMessage self m.senderID (old.follow m.senderID m.term).currentTerm false k]
  | append (m : Message N K V) (p pt : ℕ) (es : List (Entry N K V)) (lc : ℕ)
      (hbody : m.body = .appendEntries p pt es lc) (hon : old.state.isPaused = false)
      (hle : old.currentTerm ≤ m.term) (hpass : old.log.matches p pt = true) :
      Reaction self old (.receive m) ((old.follow m.senderID m.term).accept p es lc)
        [ackMessage self m.senderID m.term true
          ((old.follow m.senderID m.term).accept p es lc).log.lastIndex]
  | install (m : Message N K V) (i t : ℕ) (snap : K → Option (KVEntry (Fin N) K V))
      (inc : List (Entry N K V)) (hbody : m.body = .installSnap i t snap inc)
      (hon : old.state.isPaused = false) (hle : old.currentTerm ≤ m.term) :
      Reaction self old (.receive m) ((old.follow m.senderID m.term).install i t snap inc)
        [ackMessage self m.senderID m.term true
          ((old.follow m.senderID m.term).install i t snap inc).log.lastIndex]
  | dethrone (m : Message N K V) (hlt : old.currentTerm < m.term) : Reaction self old (.receive m)
      { old.stepDownLocked m.term with publishedRole := .follower } []
  | ack (m : Message N K V) (k : ℕ) (hbody : m.body = .appendAck true k)
      (hon : old.state.isPaused = false) (hle : m.term ≤ old.currentTerm)
      (hleader : old.role = .leader) : Reaction self old (.receive m)
        (advanceCommitLocked self (old.acknowledged m.senderID k)) []
  | retry (m : Message N K V) (f : Fin N → ℕ) :
      Reaction self old (.receive m) { old with nextIndex := f } []

namespace RaftNode

variable (self : Fin N) (n : RaftNode N K V)

/-- The ticker events. -/
lemma onTick_reaction (t : Tick) :
    Reaction self n (.tick t) (n.onTick self t).1 (n.onTick self t).2 := by
  cases t with
  | elect expired =>
    dsimp only [onTick, maybeElect]
    split_ifs with hp hx
    · exact .idle _
    · exact .idle _
    · push Not at hx
      obtain rfl : expired = true := by simpa using hx.2
      exact .elect hx.1
  | beat =>
    dsimp only [onTick]
    split_ifs
    · exact .idle _
    · exact .beat _ n.spawned (.inl rfl)
  | spawned =>
    dsimp only [onTick]
    split_ifs
    · exact .idle _
    · exact .beat _ _ (.inr rfl)
  | compact =>
    dsimp only [onTick, maybeCompact]
    split_ifs with hp hth ht
    · exact .idle _
    · exact .idle _
    · exact .idle _
    · exact .compact (by omega) ht
  | pause | resume => exact .switch _ _

section receive

variable {m : Message N K V} (hon : n.state.isPaused = false)

include hon

/-- A vote request is granted or refused. -/
lemma handleVoteRequest_reaction {a b : ℕ} (hbody : m.body = .voteRequest a b) :
    Reaction self n (.receive m) (n.handleVoteRequest self m.senderID m.term a b).1
      (n.handleVoteRequest self m.senderID m.term a b).2 := by
  have hr : (if n.currentTerm < m.term then n.stepDownLocked m.term else n) = n.raised m.term := rfl
  unfold handleVoteRequest
  simp only [hr]
  split_ifs with hg
  · rw [decide_eq_true hg]
    unfold raised at hg
    split_ifs at hg with hlt
    · exact .grant m a b hbody hon hlt.le (fun h => absurd h hlt.ne) hg.2.2
    · exact .grant m a b hbody hon hg.1.ge (fun _ => hg.2.1) hg.2.2
  · rw [decide_eq_false hg]
    exact .refuse m a b hbody hon

/-- A vote deposes, is counted, or is ignored. -/
lemma handleVoteResponse_reaction {g : Bool} (hbody : m.body = .voteResponse g) :
    Reaction self n (.receive m) (n.handleVoteResponse self m.term g) [] := by
  unfold handleVoteResponse
  split_ifs with hlt hskip hg hmaj
  · exact .deposed m g hbody hon hlt
  · exact .idle _
  · push Not at hskip
    exact .win m (hg ▸ hbody) hskip.1 hskip.2 hmaj
  · push Not at hskip
    exact .vote m (hg ▸ hbody) hskip.1 hskip.2
  · exact .idle _

/-- An AppendEntries message is outdated, does not match, or is appended. -/
lemma handleAppendEntries_reaction {p pt : ℕ} {es : List (Entry N K V)} {lc : ℕ}
    (hbody : m.body = .appendEntries p pt es lc) :
    Reaction self n (.receive m) (n.handleAppendEntries self m.senderID m.term p pt es lc).1
      (n.handleAppendEntries self m.senderID m.term p pt es lc).2 := by
  by_cases hlt : m.term < n.currentTerm
  · unfold handleAppendEntries
    rw [if_pos hlt]
    exact .outdated m
  · have hle := not_lt.mp hlt
    by_cases hm : n.log.matches p pt = true
    · rw [handleAppendEntries_eq self n hle hm]
      exact .append m p pt es lc hbody hon hle hm
    · dsimp only [handleAppendEntries]
      rw [if_neg hlt, if_pos (by rw [follow_log]; exact Bool.eq_false_iff.mpr hm)]
      exact .mismatch m _ hle

/-- An acknowledgement dethrones, is counted, makes the leader retry, or is ignored. -/
lemma handleAppendAck_reaction {success : Bool} {k : ℕ} (hbody : m.body = .appendAck success k) :
    Reaction self n (.receive m) (n.handleAppendAck self m.senderID m.term success k) [] := by
  unfold handleAppendAck
  split_ifs with hlt hl hs hn
  · exact .dethrone m hlt
  · exact .idle _
  · exact .ack m k (hs ▸ hbody) hon (not_lt.mp hlt) (not_not.mp hl)
  · exact .retry m _
  · exact .idle _

/-- A snapshot is outdated or is installed. -/
lemma handleInstallSnap_reaction {i t : ℕ} {snap : K → Option (KVEntry (Fin N) K V)}
    {inc : List (Entry N K V)} (hbody : m.body = .installSnap i t snap inc) :
    Reaction self n (.receive m) (n.handleInstallSnap self m.senderID m.term i t snap inc).1
      (n.handleInstallSnap self m.senderID m.term i t snap inc).2 := by
  by_cases hlt : m.term < n.currentTerm
  · unfold handleInstallSnap
    rw [if_pos hlt]
    exact .outdated m
  · rw [handleInstallSnap_eq self n (not_lt.mp hlt)]
    exact .install m i t snap inc hbody hon (not_lt.mp hlt)

end receive

/-- **Every step of a node has one of these outcomes.** -/
theorem react_reaction (inp : Input N K V) :
    Reaction self n inp (n.react self inp).1 (n.react self inp).2 := by
  cases inp with
  | tick t => exact onTick_reaction self n t
  | submit op ts =>
    dsimp only [react, RaftNode.propose]
    split_ifs with hp hl
    · exact .idle _
    · exact .idle _
    · exact .propose op ts (not_not.mp hl)
  | receive =>
    dsimp only [react, handleMessage]
    by_cases hon : n.state.isPaused = true
    · rw [if_pos hon]
      exact .idle _
    rw [if_neg hon]
    rw [Bool.not_eq_true] at hon
    split
    · exact handleVoteRequest_reaction self n hon ‹_›
    · exact handleVoteResponse_reaction self n hon ‹_›
    · exact handleAppendEntries_reaction self n hon ‹_›
    · exact handleAppendAck_reaction self n hon ‹_›
    · exact handleInstallSnap_reaction self n hon ‹_›

end RaftNode

/-! ### The election state -/

/-- A vote request, or a vote that was granted. -/
def Message.isBallot (m : Message N K V) : Bool :=
  match m.body with
  | .voteRequest _ _ => true
  | .voteResponse granted => granted
  | _ => false

/-- An acknowledgement is no ballot. -/
@[simp] lemma isBallot_ackMessage (self target : Fin N) (term : ℕ) (success : Bool) (k : ℕ) :
    (RaftNode.ackMessage self target term success k : Message N K V).isBallot = false := rfl

/-- What a step can do to the term, the vote, the role and the counted votes of a node, with the
ballots it sends. -/
inductive VoteMove (self : Fin N) (old : RaftNode N K V) (inp : Input N K V)
    (new : RaftNode N K V) (out : List (Message N K V)) : Prop
  | quiet (hterm : new.currentTerm = old.currentTerm) (hvote : new.votedFor = old.votedFor)
      (hvotes : new.votes = old.votes) (hrole : new.role = old.role ∨ new.role = .follower)
      (hout : ∀ m ∈ out, m.isBallot = false)
  | raise (hterm : old.currentTerm < new.currentTerm) (hvote : new.votedFor = none)
      (hvotes : new.votes = old.votes) (hrole : new.role = .follower)
      (hout : ∀ m ∈ out, m.isBallot = false)
  | elect (a b : ℕ) (hterm : new.currentTerm = old.currentTerm + 1)
      (hvote : new.votedFor = some self)
      (hvotes : new.votes = 1) (hrole : new.role = .candidate)
      (hout : out = (peers self).map fun p => ⟨self, p, new.currentTerm, .voteRequest a b⟩)
      (hlast : old.log.lastIndexTerm = (a, b))
  | grant (m : Message N K V) (a b : ℕ) (hinp : inp = .receive m)
      (hbody : m.body = .voteRequest a b) (hle : old.currentTerm ≤ m.term)
      (hterm : new.currentTerm = m.term)
      (hfree : old.currentTerm = m.term → old.votedFor = none ∨ old.votedFor = some m.senderID)
      (hvote : new.votedFor = some m.senderID) (hvotes : new.votes = old.votes)
      (hrole : (new.role = old.role ∧ old.currentTerm = m.term) ∨ new.role = .follower)
      (hout : out = [⟨self, m.senderID, m.term, .voteResponse true⟩])
      (hup : old.upToDate a b = true)
  | count (m : Message N K V) (hinp : inp = .receive m) (hbody : m.body = .voteResponse true)
      (hcand : old.role = .candidate) (hmterm : m.term = old.currentTerm)
      (hterm : new.currentTerm = old.currentTerm) (hvote : new.votedFor = old.votedFor)
      (hvotes : new.votes = old.votes + 1)
      (hrole : new.role = .candidate ∨ (new.role = .leader ∧ majority self ≤ new.votes))
      (hout : out = [])

namespace VoteMove

variable {self : Fin N} {old : RaftNode N K V} {inp : Input N K V}

/-- Terms do not go down. -/
lemma term_le (h : VoteMove self old inp new out) : old.currentTerm ≤ new.currentTerm := by
  cases h <;> omega

/-- A ballot that is sent asks for votes and describes the log of the sender, or is a vote for a
sender whose log is up to date. -/
lemma ballot_cases (h : VoteMove self old inp new out) (hmem : m ∈ out)
    (hballot : m.isBallot = true) :
    (∃ p a b, m = ⟨self, p, new.currentTerm, .voteRequest a b⟩ ∧
        old.log.lastIndexTerm = (a, b)) ∨
      ∃ m' a b, m = ⟨self, m'.senderID, m'.term, .voteResponse true⟩ ∧ inp = .receive m' ∧
        m'.body = .voteRequest a b ∧ old.currentTerm ≤ m'.term ∧ new.currentTerm = m'.term ∧
        new.votedFor = some m'.senderID ∧ old.upToDate a b = true := by
  cases h with
  | quiet _ _ _ _ hout | raise _ _ _ _ hout => simp [hout m hmem] at hballot
  | elect a b _ _ _ _ hout hlast =>
    rw [hout] at hmem
    obtain ⟨p, -, rfl⟩ := List.mem_map.mp hmem
    exact .inl ⟨p, a, b, rfl, hlast⟩
  | grant m' a b hinp hbody hle hterm _ hvote _ _ hout hup =>
    rw [hout, List.mem_singleton] at hmem
    exact .inr ⟨m', a, b, hmem, hinp, hbody, hle, hterm, hvote, hup⟩
  | count _ _ _ _ _ _ _ _ _ hout => simp [hout] at hmem

end VoteMove

namespace RaftNode

variable (self : Fin N) (n : RaftNode N K V)

/-- Replication messages are no ballots. -/
lemma isBallot_of_mem_sendAppend (h : m ∈ sendAppend self n p) : m.isBallot = false := by
  obtain ⟨-, ⟨-, rfl⟩ | ⟨prev, -, rfl⟩⟩ := mem_sendAppend self n h
  · rfl
  · rfl

/-- A node that follows a sender keeps its vote or raises its term. -/
lemma follow_voteMove {inp : Input N K V} (hle : n.currentTerm ≤ term)
    (hterm : new.currentTerm = (n.follow sender term).currentTerm)
    (hvote : new.votedFor = (n.follow sender term).votedFor)
    (hvotes : new.votes = (n.follow sender term).votes) (hrole : new.role = .follower)
    (hout : ∀ m ∈ out, m.isBallot = false) : VoteMove self n inp new out := by
  rw [follow_currentTerm sender hle] at hterm
  rw [follow_votedFor] at hvote
  rw [follow_votes] at hvotes
  by_cases hlt : n.currentTerm < term
  · rw [if_pos hlt] at hvote
    exact .raise (by omega) hvote hvotes hrole hout
  · rw [if_neg hlt] at hvote
    exact .quiet (by omega) hvote hvotes (.inr hrole) hout

/-- **Every step of a node is one of the five moves on its election state.** -/
theorem react_voteMove (inp : Input N K V) :
    VoteMove self n inp (n.react self inp).1 (n.react self inp).2 := by
  have h := n.react_reaction self inp
  generalize (n.react self inp).1 = new, (n.react self inp).2 = out at h
  cases h with
  | idle | switch | compact | outdated | retry => exact .quiet rfl rfl rfl (.inl rfl) (by simp)
  | elect => exact .elect _ _ rfl rfl rfl rfl rfl rfl
  | beat =>
    refine .quiet rfl rfl rfl (.inl rfl) fun m hm => ?_
    obtain ⟨p, -, hp⟩ := mem_sendAppend_of_mem_maybeHeartbeat self n hm
    exact isBallot_of_mem_sendAppend self n hp
  | propose =>
    refine .quiet rfl rfl rfl (.inl rfl) fun m hm => ?_
    obtain ⟨p, -, hp⟩ := List.mem_flatMap.mp hm
    exact isBallot_of_mem_sendAppend self _ hp
  | grant m a b hbody _ hle hfree hup =>
    unfold raised
    split_ifs with hlt
    · exact .grant m a b rfl hbody hle rfl hfree rfl rfl (.inr rfl) rfl hup
    · have hterm : n.currentTerm = m.term := by omega
      exact .grant m a b rfl hbody hle hterm hfree rfl rfl (.inl ⟨rfl, hterm⟩) (by rw [hterm]) hup
  | refuse =>
    unfold raised
    split_ifs with hlt
    · exact .raise hlt rfl rfl rfl (by simp [Message.isBallot])
    · exact .quiet rfl rfl rfl (.inl rfl) (by simp [Message.isBallot])
  | deposed _ _ _ _ hlt | dethrone _ hlt => exact .raise hlt rfl rfl rfl (by simp)
  | vote m hbody hcand hterm =>
    exact .count m rfl hbody hcand hterm rfl rfl rfl (.inl hcand) rfl
  | win m hbody hcand hterm hmaj =>
    exact .count m rfl hbody hcand hterm rfl rfl rfl (.inr ⟨rfl, hmaj⟩) rfl
  | mismatch m _ hle =>
    exact follow_voteMove self n hle rfl rfl rfl (follow_role n _ _) (by simp)
  | append m p _ es lc _ _ hle =>
    obtain ⟨st, a, c, h⟩ := (n.follow m.senderID m.term).accept_eq p es lc
    rw [h]
    exact follow_voteMove self n hle rfl rfl rfl (follow_role n _ _) (by simp)
  | install m i t snap inc _ _ hle =>
    obtain ⟨st, l, a, d, h⟩ := (n.follow m.senderID m.term).install_eq i t snap inc
    rw [h]
    exact follow_voteMove self n hle rfl rfl rfl (follow_role n _ _) (by simp)
  | ack m k =>
    obtain ⟨st, a, c, h⟩ := n.advance_acknowledged_eq self m.senderID k
    rw [h]
    exact .quiet rfl rfl rfl (.inl rfl) (by simp)

end RaftNode

/-- The move of an acting node on its election state. -/
lemma Cluster.voteMove (s : Cluster N K V) (n : Fin N) (inp : Input N K V) :
    VoteMove n (s.nodes n) inp (s.after n inp) (s.sent n inp) :=
  (s.nodes n).react_voteMove n inp

end Replication.Raft
