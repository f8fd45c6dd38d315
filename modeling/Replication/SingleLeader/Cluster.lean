import Replication.SingleLeader.Leader

/-!
# Single leader · Cluster: the leader, its followers and the fabric

A cluster is the leader with its client calls in progress, a follower for every other node id, and
the messages in flight. One action is one atomic step: a section of a call, the delivery or loss
of a message, a ticker event, or a change of the configuration.
-/

set_option linter.unusedSectionVars false

namespace Replication.SingleLeader

open Storage Log Node Library List

variable {I K V : Type} [DecidableEq I] [DecidableEq K] [Inhabited V]

/-- The state of the whole cluster. -/
structure Cluster (I K V : Type) where
  leader : SingleLeaderNode I K V
  followers : I → FollowerNode I K V
  /-- The messages in flight, in the order they were sent. -/
  network : List (Message I K V)
  /-- The client calls, in the order they were made. -/
  calls : List (Call I K V)

/-- What can happen next in a cluster. -/
inductive Action (I K V : Type) where
  | invoke (call : ClientCall K V)
  /-- The next section of a call, with the hybrid-clock reading it may draw. -/
  | advance (c : ℕ) (ts : ℤ)
  | expire (c : ℕ)
  /-- Delivery of the `i`-th message in flight. -/
  | deliver (i : ℕ)
  /-- Loss of the `i`-th message in flight. -/
  | drop (i : ℕ)
  /-- `ticker.C` in a follower's `runSyncLoop`. -/
  | syncTick (f : I)
  | pause (f : I)
  | resume (f : I)
  /-- `Pause` on the leader. -/
  | pauseLeader
  /-- `Resume` on the leader. -/
  | resumeLeader
  | setMode (mode : ReplicationMode)
  | addPeer (f : I)
  | removePeer (f : I)

namespace Cluster

/-- A new cluster. Source: `orchestrator.go` `createSingleLeaderCluster`. -/
def init (leaderID : I) (mode : ReplicationMode) (peers : List I) : Cluster I K V where
  leader := .new leaderID mode peers
  followers f := .new f leaderID
  network := []
  calls := []

/-- Follower `f` reacts, and its answers are sent. -/
def reactFollower (s : Cluster I K V) (f : I) (inp : FollowerInput I K V) : Cluster I K V :=
  { s with
    followers := Function.update s.followers f ((s.followers f).react inp).1
    network := s.network ++ ((s.followers f).react inp).2 }

/-- A message, taken off the network, reaches its target. -/
def receive (s : Cluster I K V) (msg : Message I K V) : Cluster I K V :=
  if msg.targetID = s.leader.id then
    { s with
      leader := (s.leader.handleMessage msg).1
      network := s.network ++ (s.leader.handleMessage msg).2 }
  else s.reactFollower msg.targetID (.receive msg)

/-- The next section of call `c`. -/
def advance (s : Cluster I K V) (i : ℕ) (c : Call I K V) (ts : ℤ) : Cluster I K V :=
  { s with
    leader := (s.leader.advance c ts).1
    calls := s.calls.set i (s.leader.advance c ts).2.1
    network := s.network ++ (s.leader.advance c ts).2.2 }

/-- One atomic step of the cluster. -/
def step (s : Cluster I K V) : Action I K V → Cluster I K V
  | .invoke call =>
    match call.start s.leader with
    | none => s
    | some c => { s with calls := s.calls ++ [c] }
  | .advance i ts =>
    match s.calls[i]? with
    | none => s
    | some c => s.advance i c ts
  | .expire i =>
    match s.calls[i]? with
    | none => s
    | some c => { s with calls := s.calls.set i c.expire }
  | .deliver i =>
    match s.network[i]? with
    | none => s
    | some msg => receive { s with network := s.network.eraseIdx i } msg
  | .drop i => { s with network := s.network.eraseIdx i }
  | .syncTick f => s.reactFollower f .syncTick
  | .pause f => s.reactFollower f .pause
  | .resume f => s.reactFollower f .resume
  | .pauseLeader => { s with leader := { s.leader with state := .paused } }
  | .resumeLeader => { s with leader := { s.leader with state := .online } }
  | .setMode mode => { s with leader := { s.leader with mode := mode } }
  | .addPeer f => { s with leader := s.leader.addPeer f }
  | .removePeer f => { s with leader := s.leader.removePeer f }

/-- What an action can do, with the changes of the leader's configuration in one case. -/
inductive Move (s : Cluster I K V) (a : Action I K V) : Cluster I K V → Prop
  | idle : s.Move a s
  | invoke (call : ClientCall K V) (c : Call I K V) (hc : call.start s.leader = some c) :
      s.Move a { s with calls := s.calls ++ [c] }
  | advance (i : ℕ) (ts : ℤ) (c : Call I K V) (ha : a = .advance i ts)
      (hc : s.calls[i]? = some c) : s.Move a (s.advance i c ts)
  | expire (i : ℕ) (c : Call I K V) (hc : s.calls[i]? = some c) :
      s.Move a { s with calls := s.calls.set i c.expire }
  | deliver (i : ℕ) (msg : Message I K V) (ha : a = .deliver i) (hm : s.network[i]? = some msg) :
      s.Move a (receive { s with network := s.network.eraseIdx i } msg)
  | drop (i : ℕ) : s.Move a { s with network := s.network.eraseIdx i }
  | react (f : I) (inp : FollowerInput I K V) (hinp : ∀ msg, inp ≠ .receive msg) :
      s.Move a (s.reactFollower f inp)
  | config (state : NodeState) (mode : ReplicationMode) (peers : List I) :
      s.Move a { s with leader := { s.leader with state := state, mode := mode, peers := peers } }

/-- **Every step is a move.** -/
theorem move_step (s : Cluster I K V) (a : Action I K V) : s.Move a (s.step a) := by
  cases a with
  | invoke call =>
    dsimp only [step]
    split
    · exact .idle
    case h_2 c hc => exact .invoke call c hc
  | advance i ts =>
    dsimp only [step]
    split
    · exact .idle
    case h_2 c hc => exact .advance i ts c rfl hc
  | expire i =>
    dsimp only [step]
    split
    · exact .idle
    case h_2 c hc => exact .expire i c hc
  | deliver i =>
    dsimp only [step]
    split
    · exact .idle
    case h_2 msg hm => exact .deliver i msg rfl hm
  | drop i => exact .drop i
  | syncTick f => exact .react f .syncTick nofun
  | pause f => exact .react f .pause nofun
  | resume f => exact .react f .resume nofun
  | pauseLeader => exact .config .paused s.leader.mode s.leader.peers
  | resumeLeader => exact .config .online s.leader.mode s.leader.peers
  | setMode mode => exact .config s.leader.state mode s.leader.peers
  | addPeer f =>
    show s.Move _ { s with leader := s.leader.addPeer f }
    rw [SingleLeaderNode.addPeer_eq]
    exact .config s.leader.state s.leader.mode _
  | removePeer => exact .config s.leader.state s.leader.mode _

/-- A link delivers in the order of sending. Source: `fabric.go` `link`. -/
def fifo (s : Cluster I K V) : Action I K V → Bool
  | .deliver i =>
    match s.network[i]? with
    | none => true
    | some m => (s.network.take i).all fun m' =>
      decide ¬ (m'.senderID = m.senderID ∧ m'.targetID = m.targetID)
  | _ => true

end Cluster

/-! ### What a section does to the log and the store -/

/-- The entry a call has appended and not stored yet. -/
def Call.pending (c : Call I K V) : Option (LogEntry I K V) :=
  match c.phase with
  | .commit e => some e
  | .store e => some e
  | _ => none

/-- A timeout keeps the entries of the call. -/
@[simp] lemma Call.expire_entries (c : Call I K V) : c.expire.entries = c.entries := by
  unfold Call.expire
  split <;> rfl

/-- A timeout keeps the entry still to be stored. -/
@[simp] lemma Call.expire_pending (c : Call I K V) : c.expire.pending = c.pending := by
  unfold Call.expire
  split
  · rename_i hp
    rw [Call.pending, Call.pending, hp]
  · rfl

/-- The operations of a call that are not in the log yet. -/
def Call.remaining (c : Call I K V) : ℕ :=
  match c.phase with
  | .stamp _ => c.todo.length + 1
  | .append _ _ _ => c.todo.length + 1
  | .commit _ => c.todo.length
  | .store _ => c.todo.length
  | _ => 0

/-- What a section of a call does to the log and the store of the leader, and to the entries of the
call. -/
inductive LogStep (l : SingleLeaderNode I K V) (c : Call I K V) (l' : SingleLeaderNode I K V)
    (c' : Call I K V) (out : List (Message I K V)) : Prop
  | append (e : LogEntry I K V) (op : Op K V) (ts : ℤ) (vc : VectorClock I)
      (hphase : c.phase = .append op ts vc) (he : e.index = l.log.nextIndex)
      (hpend : c.pending = none) (hlog : l'.log = (l.log.append e).1) (hstore : l'.store = l.store)
      (hpend' : c'.pending = some e) (hentries : c'.entries = c.entries) (hout : out = [])
  | commit (i : ℕ) (hlog : l'.log = l.log.setCommitIndex i) (hstore : l'.store = l.store)
      (hpend' : c'.pending = c.pending) (hentries : c'.entries = c.entries) (hout : out = [])
  | store (e : LogEntry I K V) (hphase : c.phase = .store e) (hlog : l'.log = l.log)
      (hstore : l'.store = storeEntry l.store e) (hpend' : c'.pending = none)
      (hentries : c'.entries = c.entries ++ [e]) (hout : out = [])
  /-- Log, store and entries stay; what is sent carries the entries of a call with no operation
  left. -/
  | other (hlog : l'.log = l.log) (hstore : l'.store = l.store) (hpend : c.pending = none)
      (hpend' : c'.pending = none) (hentries : c'.entries = c.entries)
      (hout : ∀ m ∈ out, c.remaining = 0 ∧
        ∃ p q k, m = ⟨l.id, p, .appendEntries q c.entries k⟩)

/-- The messages of a call carry its entries to its peers. -/
lemma Call.exists_of_mem_messages {c : Call I K V} {id : I} {q : ℕ} {peers : List I}
    {m : Message I K V} (h : m ∈ c.messages id q peers) :
    ∃ p ∈ peers, ∃ k, m = ⟨id, p, .appendEntries q c.entries k⟩ := by
  obtain ⟨p, hp, rfl⟩ := mem_map.mp h
  exact ⟨p, hp, _, rfl⟩

/-- A section of the wait changes the channels only, and sends messages of its call. -/
lemma replicateStep_frame (l : SingleLeaderNode I K V) (c : Call I K V) (q : ℕ)
    (peers : List I) (mode : ReplicationMode) (stage : Stage I) :
    ∃ chs, (l.replicateStep c q peers mode stage).1 = { l with ackChs := chs } ∧
      ∀ m ∈ (l.replicateStep c q peers mode stage).2.2, m ∈ c.messages l.id q peers := by
  cases stage with
  | register =>
    cases mode with
    | async => exact ⟨l.ackChs, rfl, fun m hm => hm⟩
    | sync | semiSync => exact ⟨_, rfl, nofun⟩
  | broadcast => exact ⟨l.ackChs, rfl, fun m hm => hm⟩
  | await =>
    dsimp only [SingleLeaderNode.replicateStep]
    split_ifs
    · exact ⟨l.ackChs, rfl, nofun⟩
    · split
      · exact ⟨_, rfl, nofun⟩
      · exact ⟨l.ackChs, rfl, nofun⟩
  | unregister => exact ⟨_, rfl, nofun⟩
  | returned => exact ⟨l.ackChs, rfl, nofun⟩

/-- **Every section of a call is one of the four.** -/
theorem advance_logStep (l : SingleLeaderNode I K V) (c : Call I K V) (ts : ℤ) :
    LogStep l c (l.advance c ts).1 (l.advance c ts).2.1 (l.advance c ts).2.2 := by
  obtain ⟨call, todo, entries, phase⟩ := c
  cases phase with
  | stamp | getPeers | nextSeq | getPeersLast => exact .other rfl rfl rfl rfl rfl nofun
  | append op ts' vc =>
    exact .append (op.entry l.id ts' vc l.log.nextIndex) op ts' vc rfl rfl rfl rfl rfl rfl rfl rfl
  | commit e => exact .commit e.index rfl rfl rfl rfl rfl
  | store e =>
    cases todo with
    | nil => cases call <;> exact .store e rfl rfl rfl rfl rfl rfl
    | cons => exact .store e rfl rfl rfl rfl rfl rfl
  | getMode q peers =>
    cases peers <;> exact .other rfl rfl rfl rfl rfl nofun
  | replicate q peers mode stage =>
    obtain ⟨chs, hl, hout⟩ := replicateStep_frame l
      ⟨call, todo, entries, .replicate q peers mode stage⟩ q peers mode stage
    have hlog := congrArg SingleLeaderNode.log hl
    have hstore := congrArg SingleLeaderNode.store hl
    refine .other hlog hstore rfl rfl rfl fun m hm => ⟨rfl, ?_⟩
    obtain ⟨p, -, k, hm⟩ := Call.exists_of_mem_messages (hout m hm)
    exact ⟨p, q, k, hm⟩

/-! ### The invariant -/

/-- The leader's log stands for its own entries, calls and messages carry entries of it, and every
follower follows it. -/
structure ClusterInv (s : Cluster I K V) : Prop where
  rep : Represents s.leader.log s.leader.log.entries
  boundary : s.leader.log.snapshotIndex = 0
  entries : ∀ c ∈ s.calls, ∀ e ∈ c.entries, e ∈ s.leader.log.entries
  pending : ∀ c ∈ s.calls, ∀ e, c.pending = some e → e ∈ s.leader.log.entries
  copies : ∀ m ∈ s.network, m.Copies s.leader.log.entries
  follows : ∀ f, FollowsLog s.leader.log.entries (s.followers f)
  ids : ∀ f, (s.followers f).id = f

/-- A new cluster meets the invariant. -/
lemma clusterInv_init (leaderID : I) (mode : ReplicationMode) (peers : List I) :
    ClusterInv (Cluster.init leaderID mode peers : Cluster I K V) where
  rep := represents_new
  boundary := rfl
  entries _ hc := absurd hc not_mem_nil
  pending _ hc := absurd hc not_mem_nil
  copies _ hm := absurd hm not_mem_nil
  follows f := followsLog_new f leaderID
  ids _ := rfl

section step

variable {s : Cluster I K V}

/-- An entry with the next index goes to the end of the leader's log. -/
lemma ClusterInv.append_entries (h : ClusterInv s) {e : LogEntry I K V}
    (he : e.index = s.leader.log.nextIndex) :
    (s.leader.log.append e).1.entries = s.leader.log.entries ++ [e] ∧
      Represents (s.leader.log.append e).1 (s.leader.log.append e).1.entries := by
  have heq : (s.leader.log.append e).1.entries = s.leader.log.entries ++ [e] := by
    show s.leader.log.entries ++ [{ e with index := s.leader.log.nextIndex }] = _
    rw [← he]
  refine ⟨heq, ?_⟩
  have := h.rep.append e
  rw [← h.rep.next_eq, ← he] at this
  rw [heq]
  exact this

/-- Steps of the leader: its log grows, and new calls and messages carry entries of it. -/
lemma ClusterInv.of_leader (h : ClusterInv s) {l : SingleLeaderNode I K V}
    {network : List (Message I K V)} {calls : List (Call I K V)}
    (hrep : Represents l.log l.log.entries) (hbound : l.log.snapshotIndex = 0)
    (hpre : s.leader.log.entries <+: l.log.entries)
    (hcalls : ∀ c ∈ calls, c ∈ s.calls ∨
      (∀ e ∈ c.entries, e ∈ l.log.entries) ∧ ∀ e, c.pending = some e → e ∈ l.log.entries)
    (hnet : ∀ m ∈ network, m ∈ s.network ∨ m.Copies l.log.entries) :
    ClusterInv { s with leader := l, network := network, calls := calls } := by
  have hin : ∀ e ∈ s.leader.log.entries, e ∈ l.log.entries := fun e he => hpre.subset he
  refine ⟨hrep, hbound, fun c hc e he => ?_, fun c hc e he => ?_, fun m hm => ?_,
    fun f => (h.follows f).mono hpre, h.ids⟩
  · rcases hcalls c hc with hc | ⟨hc, -⟩
    · exact hin e (h.entries c hc e he)
    · exact hc e he
  · rcases hcalls c hc with hc | ⟨-, hc⟩
    · exact hin e (h.pending c hc e he)
    · exact hc e he
  · rcases hnet m hm with hm | hm
    · exact (h.copies m hm).mono hin
    · exact hm

/-- What a section of a call does to the leader's log, and what the call comes to carry of it. -/
lemma ClusterInv.logStep (h : ClusterInv s) {c c' : Call I K V} {l' : SingleLeaderNode I K V}
    {out : List (Message I K V)} (hstep : LogStep s.leader c l' c' out) :
    s.leader.log.entries <+: l'.log.entries ∧ Represents l'.log l'.log.entries ∧
      l'.log.snapshotIndex = 0 ∧ (∀ e ∈ c'.entries, e ∈ c.entries ∨ c.pending = some e) ∧
      (∀ e, c'.pending = some e → c.pending = some e ∨ e ∈ l'.log.entries) ∧
      ∀ m ∈ out, ∃ p q k, m = ⟨s.leader.id, p, .appendEntries q c.entries k⟩ := by
  cases hstep with
  | append e op ts vc _ he _ hlog _ hpend' hentries hout =>
    obtain ⟨heq, hrep⟩ := h.append_entries he
    rw [hlog, hentries, hpend', hout]
    refine ⟨heq ▸ prefix_append _ _, hrep, h.boundary, fun _ he' => .inl he', ?_, nofun⟩
    rintro _ ⟨rfl⟩
    exact .inr (heq ▸ mem_append_right _ (mem_singleton_self e))
  | commit k hlog _ hpend' hentries hout =>
    rw [hlog, hentries, hpend', hout, setCommitIndex_entries, setCommitIndex_snapshotIndex]
    exact ⟨prefix_rfl, h.rep.setCommitIndex k, h.boundary, fun _ => .inl, fun _ => .inl, nofun⟩
  | store e hphase hlog _ hpend' hentries hout =>
    rw [hlog, hentries, hpend', hout]
    refine ⟨prefix_rfl, h.rep, h.boundary, fun e' he' => ?_, nofun, nofun⟩
    refine (mem_append.mp he').imp_right fun he' => ?_
    rw [mem_singleton.mp he', Call.pending, hphase]
  | other hlog _ _ hpend' hentries hout =>
    rw [hlog, hentries, hpend']
    exact ⟨prefix_rfl, h.rep, h.boundary, fun _ => .inl, nofun,
      fun m hm => (hout m hm).2⟩

/-- A section of a call keeps the invariant. -/
lemma ClusterInv.advance (h : ClusterInv s) {i : ℕ} {c : Call I K V}
    (hc : s.calls[i]? = some c) (ts : ℤ) : ClusterInv (s.advance i c ts) := by
  have hmem := mem_of_getElem? hc
  obtain ⟨hpre, hrep, hbound, hentries, hpend, hout⟩ := h.logStep (advance_logStep s.leader c ts)
  refine h.of_leader hrep hbound hpre (fun x hx => ?_) fun m hm => ?_
  · rcases mem_or_eq_of_mem_set hx with hx | rfl
    · exact .inl hx
    refine .inr ⟨fun e he => hpre.subset ?_, fun e he => ?_⟩
    · exact (hentries e he).elim (h.entries c hmem e) (h.pending c hmem e)
    · exact (hpend e he).elim (fun he => hpre.subset (h.pending c hmem e he)) id
  · refine (mem_append.mp hm).imp_right fun hm => ?_
    obtain ⟨p, q, k, rfl⟩ := hout m hm
    exact fun e he => hpre.subset (h.entries c hmem e he)

/-- The follower that reacts. -/
lemma reactFollower_self (s : Cluster I K V) (f : I) (inp : FollowerInput I K V) :
    (s.reactFollower f inp).followers f = ((s.followers f).react inp).1 :=
  Function.update_self _ _ _

/-- A property of all followers stays, if the one that reacts keeps it. -/
lemma forall_reactFollower {f : I} {inp : FollowerInput I K V}
    (P : I → FollowerNode I K V → Prop) (hf : P f ((s.followers f).react inp).1)
    (h : ∀ g, P g (s.followers g)) : ∀ g, P g ((s.reactFollower f inp).followers g) :=
  (Function.forall_update_iff s.followers P).mpr ⟨hf, fun g _ => h g⟩

/-- A reaction to copies of the log keeps the invariant. -/
lemma ClusterInv.reactFollower (h : ClusterInv s) (f : I) {inp : FollowerInput I K V}
    (hc : inp.Copies s.leader.log.entries) : ClusterInv (s.reactFollower f inp) := by
  have hr := reacts_react (s.followers f) inp
  refine ⟨h.rep, h.boundary, h.entries, h.pending, fun m hm => ?_,
    forall_reactFollower (fun _ => FollowsLog s.leader.log.entries)
      ((h.follows f).react h.rep.index_eq hc) h.follows,
    forall_reactFollower (fun g n => n.id = g) (hr.frame.1.trans (h.ids f)) h.ids⟩
  rcases mem_append.mp hm with hm | hm
  · exact h.copies m hm
  · rcases hr.out hm with ⟨q, rfl⟩ | rfl <;> trivial

/-- A message to the leader changes the channels only; a catch-up request is answered from the log.
-/
lemma handleMessage_frame (l : SingleLeaderNode I K V) (msg : Message I K V) :
    (∃ chs, (l.handleMessage msg).1 = { l with ackChs := chs }) ∧
      ∀ m ∈ (l.handleMessage msg).2, ∃ k j, msg.body = .sync k ∧
        m = ⟨l.id, msg.senderID, .appendEntries 0 (l.log.getFrom k) j⟩ := by
  unfold SingleLeaderNode.handleMessage
  cases msg.body with
  | appendAck =>
    dsimp only
    split
    · exact ⟨⟨l.ackChs, rfl⟩, nofun⟩
    · split_ifs
      · exact ⟨⟨_, rfl⟩, nofun⟩
      · exact ⟨⟨l.ackChs, rfl⟩, nofun⟩
  | sync k =>
    dsimp only
    split_ifs
    · exact ⟨⟨l.ackChs, rfl⟩, nofun⟩
    · exact ⟨⟨l.ackChs, rfl⟩, fun m hm => ⟨k, _, rfl, mem_singleton.mp hm⟩⟩
  | appendEntries | readRepair => exact ⟨⟨l.ackChs, rfl⟩, nofun⟩

/-- What is read from the log is in it. -/
lemma mem_of_mem_getFrom {l : ReplicationLog I K V} {k : ℕ} {e : LogEntry I K V}
    (h : e ∈ l.getFrom k) : e ∈ l.entries := by
  unfold ReplicationLog.getFrom at h
  split_ifs at h
  · cases h
  · exact mem_of_mem_drop h
  · exact mem_of_mem_drop h

/-- A delivered message keeps the invariant. -/
lemma ClusterInv.receive (h : ClusterInv s) {msg : Message I K V}
    (hc : msg.Copies s.leader.log.entries) : ClusterInv (s.receive msg) := by
  unfold Cluster.receive
  split_ifs
  · obtain ⟨⟨chs, hl⟩, hout⟩ := handleMessage_frame s.leader msg
    refine h.of_leader (by rw [hl]; exact h.rep) (by rw [hl]; exact h.boundary) (by rw [hl])
      (fun c hc => .inl hc) fun m hm => ?_
    rcases mem_append.mp hm with hm | hm
    · exact .inl hm
    obtain ⟨k, j, -, rfl⟩ := hout m hm
    refine .inr ?_
    rw [hl]
    exact fun e he => mem_of_mem_getFrom he
  · exact h.reactFollower _ hc

/-- Losing messages keeps the invariant. -/
lemma ClusterInv.of_network (h : ClusterInv s) {network : List (Message I K V)}
    (hnet : ∀ m ∈ network, m ∈ s.network) : ClusterInv { s with network := network } :=
  { h with copies := fun m hm => h.copies m (hnet m hm) }

/-- **Every step keeps the invariant.** -/
theorem clusterInv_step (h : ClusterInv s) (a : Action I K V) : ClusterInv (s.step a) := by
  have hmove := s.move_step a
  generalize s.step a = s' at hmove ⊢
  cases hmove with
  | idle => exact h
  | invoke call c hc =>
    obtain ⟨op, todo, rfl⟩ := ClientCall.exists_of_start hc
    refine h.of_leader h.rep h.boundary prefix_rfl (fun x hx => ?_) fun m hm => .inl hm
    rcases mem_append.mp hx with hx | hx
    · exact .inl hx
    · obtain rfl := mem_singleton.mp hx
      exact .inr ⟨nofun, nofun⟩
  | advance i ts c _ hc => exact h.advance hc ts
  | expire i c hc =>
    have hmem := mem_of_getElem? hc
    refine h.of_leader h.rep h.boundary prefix_rfl (fun x hx => ?_) fun m hm => .inl hm
    rcases mem_or_eq_of_mem_set hx with hx | rfl
    · exact .inl hx
    · rw [Call.expire_entries, Call.expire_pending]
      exact .inr ⟨h.entries c hmem, h.pending c hmem⟩
  | deliver i msg _ hm =>
    exact (h.of_network fun m hm => mem_of_mem_eraseIdx hm).receive
      (h.copies msg (mem_of_getElem? hm))
  | drop i => exact h.of_network fun m hm => mem_of_mem_eraseIdx hm
  | react f inp hinp =>
    refine h.reactFollower f ?_
    cases inp with
    | receive msg => exact absurd rfl (hinp msg)
    | _ => trivial
  | config =>
    exact h.of_leader h.rep h.boundary prefix_rfl (fun c hc => .inl hc) fun m hm => .inl hm

/-- The leader's log only grows. -/
lemma ClusterInv.entries_prefix_step (h : ClusterInv s) (a : Action I K V) :
    s.leader.log.entries <+: (s.step a).leader.log.entries := by
  have hmove := s.move_step a
  generalize s.step a = s' at hmove ⊢
  cases hmove with
  | advance i ts c => exact (h.logStep (advance_logStep s.leader c ts)).1
  | deliver i msg =>
    unfold Cluster.receive
    split_ifs
    · obtain ⟨⟨chs, hl⟩, -⟩ := handleMessage_frame s.leader msg
      show _ <+: (s.leader.handleMessage msg).1.log.entries
      rw [hl]
    · exact prefix_rfl
  | _ => exact prefix_rfl

end step

/-- **The invariant holds in every state of every run.** -/
theorem clusterInv_run (leaderID : I) (mode : ReplicationMode) (peers : List I)
    (as : List (Action I K V)) :
    ClusterInv (run Cluster.step (Cluster.init leaderID mode peers) as) :=
  run_invariant' ClusterInv (fun _ a h => clusterInv_step h a) as
    (clusterInv_init leaderID mode peers)

/-- **Followers never diverge**: whatever a follower holds at any time, in any mode and whatever is
lost, reordered, sent again or paused, is for ever the beginning of the leader's log, and its store
has the contents of applying this beginning. -/
theorem followers_hold_leader_log (leaderID : I) (mode : ReplicationMode) (peers : List I)
    (as bs : List (Action I K V)) (f : I) :
    let s := run Cluster.step (Cluster.init leaderID mode peers) as
    let L := (run Cluster.step s bs).leader.log.entries
    (s.followers f).log.entries = L.take (s.followers f).applied ∧
      (s.followers f).store.contents = stateOf (L.take (s.followers f).applied) := by
  intro s L
  have hinv : ClusterInv s := clusterInv_run leaderID mode peers as
  have hgrows : s.leader.log.entries <+: L :=
    (run_invariant' (fun s' => ClusterInv s' ∧ s.leader.log.entries <+: s'.leader.log.entries)
      (fun _ a h => ⟨clusterInv_step h.1 a, h.2.trans (h.1.entries_prefix_step a)⟩) bs
      ⟨hinv, prefix_rfl⟩).2
  have hfollows := (hinv.follows f).mono hgrows
  refine ⟨?_, hfollows.store⟩
  have hentries := hfollows.log.entries_eq
  rwa [hfollows.boundary, drop_zero] at hentries

end Replication.SingleLeader
