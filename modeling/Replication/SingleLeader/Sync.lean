import Replication.SingleLeader.Cluster

/-!
# Single leader · Sync: what an acknowledgement of a follower is worth

In sync mode a call returns without error when every peer has acknowledged its message. A follower
acknowledges every message it handles, also when the entries of the message only went into its
buffer because an earlier one is missing.

* `SyncInv` — in runs that are `gapless`, whatever a call has heard from, in flight or in its
  channel, has applied its entries.
* Durable sync calls — a call that returned without error in sync mode is applied at every peer;
  in `lostRun` it is only buffered.
-/

set_option linter.unusedSectionVars false

namespace Replication.SingleLeader

open Storage Log Node Library List

variable {I K V : Type} [DecidableEq I] [DecidableEq K] [Inhabited V] {c : Call I K V}
  {es : List (LogEntry I K V)} {f : I} {inp : FollowerInput I K V} {l : SingleLeaderNode I K V}
  {mode : ReplicationMode} {msg : Message I K V} {ps : List I} {q : ℕ}

/-! ### The condition -/

/-- Every entry between the applied index and those of the message is in the buffer or in the
message. -/
def FollowerNode.gapless (n : FollowerNode I K V) (entries : List (LogEntry I K V)) : Bool :=
  entries.all fun e => decide (∀ i ≤ e.index, n.applied < i →
    (n.pending.lookup i).isSome = true ∨ ∃ e' ∈ entries, e'.index = i)

/-- The message of a call reaches a follower that can apply it. -/
def Cluster.gapless (s : Cluster I K V) : Action I K V → Bool
  | .deliver i =>
    match s.network[i]? with
    | some ⟨_, f, .appendEntries seqNo entries _⟩ =>
      seqNo = 0 ∨ f = s.leader.id ∨ (s.followers f).state.isPaused = true ∨
        (s.followers f).gapless entries = true
    | _ => true
  | _ => true

section follower

variable {n : FollowerNode I K V}

/-- Without a gap, every entry of the message is applied. -/
lemma le_applied_of_gapless {entries : List (LogEntry I K V)} (h : n.gapless entries = true)
    {e : LogEntry I K V} (he : e ∈ entries) : e.index ≤ (n.absorb entries).applied := by
  dsimp only [FollowerNode.absorb]
  rw [FollowerNode.applyRounds_eq]
  refine le_release_of_mem le_rfl fun i hi hle => ?_
  have hgap := of_decide_eq_true (all_eq_true.mp h e he) i hle
  rw [FollowerNode.foldl_buffer_eq] at hi
  exact FollowerNode.mem_foldl_buffer hi ((hgap hi).imp_left AList.lookup_isSome.mp)

/-- An acknowledgement is for a message that the follower has just absorbed. -/
lemma handled_of_reacts {n' : FollowerNode I K V} {out : List (Message I K V)}
    (h : n.Reacts inp n' out) {m : Message I K V} (hm : m ∈ out) (hb : m.body = .appendAck q) :
    m.senderID = n.id ∧ ∃ msg es k, inp = .receive msg ∧ msg.body = .appendEntries q es k ∧
      n.state.isPaused = false ∧ n'.applied = (n.absorb es).applied := by
  cases h with
  | idle _ state out hout =>
    rw [hout m hm] at hb
    cases hb
  | absorb a b q' es k leaderIndex out hup hout =>
    rcases hout m hm with rfl | rfl <;> cases hb
    exact ⟨rfl, _, es, k, rfl, rfl, hup, rfl⟩
  | repair => cases hm

end follower

/-! ### Sequence numbers, channels and messages -/

/-- The sequence number of a call, once it has one. -/
def Phase.seq : Phase I K V → Option ℕ
  | .getMode q _ => some q
  | .getPeersLast q _ => some q
  | .replicate q _ _ _ => some q
  | _ => none

/-- The peers a call replicates to, once it does. -/
def Phase.peers : Phase I K V → Option (List I)
  | .replicate _ ps _ _ => some ps
  | _ => none

/-- The peers a call has heard from; a call that returned without error in sync mode vouches for
all of them. -/
def Phase.heard : Phase I K V → Finset I
  | .replicate _ _ _ (.await r) => r
  | .replicate _ _ _ (.unregister r) => r
  | .replicate _ ps .sync (.returned none) => ps.toFinset
  | _ => ∅

/-- A call with peers has a sequence number. -/
lemma Phase.seq_of_peers {p : Phase I K V} (h : p.peers = some ps) : ∃ q, p.seq = some q := by
  cases p with
  | replicate q => exact ⟨q, rfl⟩
  | _ => cases h

/-- A call that has heard from someone has a sequence number. -/
lemma Phase.seq_of_mem_heard {p : Phase I K V} (h : f ∈ p.heard) : ∃ q, p.seq = some q := by
  cases p with
  | replicate q => exact ⟨q, rfl⟩
  | _ => exact absurd h (Finset.notMem_empty f)

/-- Only a successful return in sync mode vouches for peers. -/
lemma Phase.sync_of_mem_heard {err : Option ReplicationError}
    (h : f ∈ (Phase.replicate q ps mode (.returned err) : Phase I K V).heard) :
    mode = .sync ∧ err = none ∧ f ∈ ps := by
  cases mode <;> cases err <;> simp_all [Phase.heard]

/-- Sync mode succeeds with an acknowledgement for every peer. -/
lemma length_le_of_replicationError {r : Finset I} (h : replicationError .sync ps r = none) :
    ps.length ≤ r.card := by
  dsimp only [replicationError] at h
  split_ifs at h with hlt
  exact not_lt.mp hlt

/-- The channels `chs` are those of `chs₀`, less what was taken out, and at most an empty one
under `q` besides. -/
def ChansFrom (q : ℕ) (chs₀ chs : AList (fun _ : ℕ => AckCh I)) : Prop :=
  ∀ q' ch, chs.lookup q' = some ch →
    (∃ ch₀, chs₀.lookup q' = some ch₀ ∧ ∀ f ∈ ch.queue, f ∈ ch₀.queue) ∨
    (ch.queue = [] ∧ q' = q)

/-- The channels may stay. -/
lemma chansFrom_self (q : ℕ) (chs : AList (fun _ : ℕ => AckCh I)) : ChansFrom q chs chs :=
  fun _ ch hch => .inl ⟨ch, hch, fun _ hf => hf⟩

/-- Under `q`, an empty channel or one with less in it may be put. -/
lemma chansFrom_insert {chs : AList (fun _ : ℕ => AckCh I)} {ch₁ : AckCh I}
    (h : (∃ ch₀, chs.lookup q = some ch₀ ∧ ∀ f ∈ ch₁.queue, f ∈ ch₀.queue) ∨ ch₁.queue = []) :
    ChansFrom q chs (chs.insert q ch₁) := by
  intro q' ch hch
  by_cases hq : q' = q
  · subst hq
    rw [AList.lookup_insert, Option.some.injEq] at hch
    subst hch
    exact h.imp_right fun hnil => ⟨hnil, rfl⟩
  · rw [AList.lookup_insert_ne hq] at hch
    exact chansFrom_self q chs q' ch hch

/-- The channel of `q` may be removed. -/
lemma chansFrom_erase (q : ℕ) (chs : AList (fun _ : ℕ => AckCh I)) :
    ChansFrom q chs (chs.erase q) := by
  intro q' ch hch
  have hne : q' ≠ q := by
    rintro rfl
    rw [AList.lookup_erase] at hch
    cases hch
  rw [AList.lookup_erase_ne hne] at hch
  exact chansFrom_self q chs q' ch hch

/-- What a section of a call does to its sequence number, the channels and the network. -/
structure SeqStep (l : SingleLeaderNode I K V) (c : Call I K V) (l' : SingleLeaderNode I K V)
    (c' : Call I K V) (out : List (Message I K V)) : Prop where
  seqNo_le : l.seqNo ≤ l'.seqNo
  /-- A call with a sequence number had it before, with the same entries and peers, or has just
  drawn the next one. -/
  seq : ∀ q, c'.phase.seq = some q →
    (c.phase.seq = some q ∧ c'.entries = c.entries ∧
      ∀ ps, c.phase.peers = some ps → c'.phase.peers = some ps) ∨
    (c.phase.seq = none ∧ q = l.seqNo + 1 ∧ l'.seqNo = l.seqNo + 1)
  /-- What is sent carries the entries of the call to one of its peers, under its number. -/
  sent : ∀ m ∈ out, ∃ q ps k, c.phase.seq = some q ∧ c'.phase.seq = some q ∧
    c'.phase.peers = some ps ∧ m.targetID ∈ ps ∧ m.body = .appendEntries q c'.entries k
  /-- Channels are those there were, less what was taken out, or the new one of the call. -/
  chans : ∀ q ch, l'.ackChs.lookup q = some ch →
    (∃ ch₀, l.ackChs.lookup q = some ch₀ ∧ ∀ f ∈ ch.queue, f ∈ ch₀.queue) ∨
    (ch.queue = [] ∧ c.phase.seq = some q)
  /-- The call has heard from whom it had, from one in its channel, or, as it returns, from all
  its peers. -/
  heard : ∀ f ∈ c'.phase.heard, f ∈ c.phase.heard ∨
    (∃ q ch, c.phase.seq = some q ∧ l.ackChs.lookup q = some ch ∧ f ∈ ch.queue) ∨
    ∃ q ps r, c.phase = .replicate q ps .sync (.unregister r) ∧ ps.length ≤ r.card ∧ f ∈ ps

/-- Sections before the replication leave numbers and channels alone. -/
lemma seqStep_of_eq {l' : SingleLeaderNode I K V} {c' : Call I K V} (hno : l'.seqNo = l.seqNo)
    (hchs : l'.ackChs = l.ackChs)
    (hseq : ∀ q, c'.phase.seq = some q → c.phase.seq = some q ∧ c'.entries = c.entries)
    (hpeers : c.phase.peers = none) (hheard : c'.phase.heard = ∅) : SeqStep l c l' c' [] where
  seqNo_le := hno.ge
  seq q hq := by
    obtain ⟨hq, he⟩ := hseq q hq
    refine .inl ⟨hq, he, fun ps hps => ?_⟩
    rw [hpeers] at hps
    cases hps
  sent m hm := absurd hm not_mem_nil
  chans q ch hch := .inl ⟨ch, hchs ▸ hch, fun f hf => hf⟩
  heard f hf := by
    rw [hheard] at hf
    exact absurd hf (Finset.notMem_empty f)

/-- Sections of the replication move from one stage to the next. -/
lemma seqStep_of_stage {l' : SingleLeaderNode I K V} {st st' : Stage I} {out : List (Message I K V)}
    (hphase : c.phase = .replicate q ps mode st) (hno : l'.seqNo = l.seqNo)
    (hout : ∀ m ∈ out, m ∈ c.messages l.id q ps) (hchs : ChansFrom q l.ackChs l'.ackChs)
    (hheard : ∀ f ∈ (Phase.replicate q ps mode st' : Phase I K V).heard,
      f ∈ (Phase.replicate q ps mode st : Phase I K V).heard ∨
      (∃ ch, l.ackChs.lookup q = some ch ∧ f ∈ ch.queue) ∨
      ∃ r, mode = .sync ∧ st = .unregister r ∧ ps.length ≤ r.card ∧ f ∈ ps) :
    SeqStep l c l' { c with phase := .replicate q ps mode st' } out where
  seqNo_le := hno.ge
  seq q' hq' := by
    refine .inl ⟨?_, rfl, fun ps' hps' => ?_⟩
    · rw [hphase]
      exact hq'
    · rw [hphase] at hps'
      exact hps'
  sent m hm := by
    obtain ⟨p, hp, k, rfl⟩ := Call.exists_of_mem_messages (hout m hm)
    exact ⟨q, ps, k, by rw [hphase]; rfl, rfl, rfl, hp, rfl⟩
  chans q' ch hch := by
    refine (hchs q' ch hch).imp_right fun ⟨hnil, hq⟩ => ⟨hnil, ?_⟩
    rw [hphase, hq]
    rfl
  heard f hf := by
    refine (hheard f hf).imp (fun hf => hphase ▸ hf) (Or.imp ?_ ?_)
    · rintro ⟨ch, hch, hf⟩
      exact ⟨q, ch, by rw [hphase]; rfl, hch, hf⟩
    · rintro ⟨r, rfl, rfl, hlen, hf⟩
      exact ⟨q, ps, r, hphase, hlen, hf⟩

section

variable (l : SingleLeaderNode I K V)

/-- The sections of `awaitReplication`, stage by stage. -/
lemma replicateStep_seqStep {stage : Stage I} (hphase : c.phase = .replicate q ps mode stage) :
    SeqStep l c (l.replicateStep c q ps mode stage).1
      { c with phase := .replicate q ps mode (l.replicateStep c q ps mode stage).2.1 }
      (l.replicateStep c q ps mode stage).2.2 := by
  cases stage with
  | register =>
    cases mode with
    | async =>
      exact seqStep_of_stage hphase rfl (fun _ hm => hm) (chansFrom_self _ _) fun _ => .inl
    | sync | semiSync =>
      exact seqStep_of_stage hphase rfl (nofun) (chansFrom_insert (.inr rfl)) fun _ => .inl
  | broadcast =>
    exact seqStep_of_stage hphase rfl (fun _ hm => hm) (chansFrom_self _ _) fun _ => .inl
  | await =>
    dsimp only [SingleLeaderNode.replicateStep]
    split_ifs with hdone
    · exact seqStep_of_stage hphase rfl (nofun) (chansFrom_self _ _) fun _ => .inl
    split
    · rename_i cap f₀ queue hch
      refine seqStep_of_stage hphase rfl (nofun)
        (chansFrom_insert (.inl ⟨_, hch, fun f hf => mem_cons_of_mem _ hf⟩)) fun f hf => ?_
      rcases Finset.mem_insert.mp hf with rfl | hf
      · exact .inr (.inl ⟨_, hch, mem_cons_self⟩)
      · exact .inl hf
    · exact seqStep_of_stage hphase rfl (nofun) (chansFrom_self _ _) fun _ => .inl
  | unregister r =>
    refine seqStep_of_stage hphase rfl (nofun)
      (chansFrom_erase q l.ackChs) fun f hf => .inr (.inr ?_)
    obtain ⟨rfl, herr, hf⟩ := Phase.sync_of_mem_heard hf
    exact ⟨r, rfl, rfl, length_le_of_replicationError herr, hf⟩
  | returned => exact seqStep_of_stage hphase rfl (nofun) (chansFrom_self _ _) fun _ => .inl

/-- **Every section of a call is such a step.** -/
theorem advance_seqStep (c : Call I K V) (ts : ℤ) :
    SeqStep l c (l.advance c ts).1 (l.advance c ts).2.1 (l.advance c ts).2.2 := by
  obtain ⟨call, todo, entries, phase⟩ := c
  cases phase with
  | stamp | append | commit | getPeers =>
    exact seqStep_of_eq rfl rfl (fun q hq => by cases hq) rfl rfl
  | store =>
    cases todo with
    | nil =>
      cases call <;> exact seqStep_of_eq rfl rfl (fun q hq => by cases hq) rfl rfl
    | cons op todo => exact seqStep_of_eq rfl rfl (fun q hq => by cases hq) rfl rfl
  | nextSeq =>
    refine ⟨Nat.le_succ _, fun q hq => ?_, nofun,
      fun q ch hch => .inl ⟨ch, hch, fun f hf => hf⟩,
      fun f hf => absurd hf (Finset.notMem_empty f)⟩
    have hq' : l.seqNo + 1 = q := Option.some.inj hq
    exact .inr ⟨rfl, hq'.symm, rfl⟩
  | getMode q ps =>
    cases ps with
    | none | some => exact seqStep_of_eq rfl rfl (fun q' hq' => ⟨hq', rfl⟩) rfl rfl
  | getPeersLast q mode => exact seqStep_of_eq rfl rfl (fun q' hq' => ⟨hq', rfl⟩) rfl rfl
  | replicate =>
    exact replicateStep_seqStep l rfl

/-- A timeout is such a step too. -/
lemma expire_seqStep (c : Call I K V) : SeqStep l c l c.expire [] := by
  have same : SeqStep l c l c [] :=
    ⟨le_rfl, fun q hq => .inl ⟨hq, rfl, fun _ hps => hps⟩, nofun,
      fun q ch hch => .inl ⟨ch, hch, fun f hf => hf⟩, fun f hf => .inl hf⟩
  unfold Call.expire
  split
  · rename_i q ps mode r hphase
    exact seqStep_of_stage hphase rfl (nofun) (chansFrom_self _ _) fun _ => .inl
  · exact same

end

/-! ### The invariant -/

/-- Whoever replicates under number `q` does so to `f`, and `f` has applied its entries. -/
def Cluster.Confirms (s : Cluster I K V) (q : ℕ) (f : I) : Prop :=
  ∀ c ∈ s.calls, c.phase.seq = some q → ∃ ps, c.phase.peers = some ps ∧ f ∈ ps ∧
    ∀ e ∈ c.entries, e.index ≤ (s.followers f).applied

/-- Whoever replicates under number `q` does so to `f`, with these entries. -/
def Cluster.Carries (s : Cluster I K V) (q : ℕ) (f : I) (entries : List (LogEntry I K V)) : Prop :=
  ∀ c ∈ s.calls, c.phase.seq = some q → ∃ ps, c.phase.peers = some ps ∧ f ∈ ps ∧
    entries = c.entries

/-- Entries travel under the number of their call, and an acknowledgement confirms its number. -/
def Cluster.Sound (s : Cluster I K V) (m : Message I K V) : Prop :=
  (∀ q es k, m.body = .appendEntries q es k →
    q ≤ s.leader.seqNo ∧ (q ≠ 0 → s.Carries q m.targetID es)) ∧
  ∀ q, m.body = .appendAck q → q ≤ s.leader.seqNo ∧ (q ≠ 0 → s.Confirms q m.senderID)

/-- Whoever is in the channel of a number confirms it. -/
def Cluster.ChanSound (s : Cluster I K V) (q : ℕ) (ch : AckCh I) : Prop :=
  q ≠ 0 ∧ q ≤ s.leader.seqNo ∧ ∀ f ∈ ch.queue, s.Confirms q f

/-- Numbers are unique, and whatever is heard, in a channel or in flight under one is true of its
call. -/
structure SyncInv (s : Cluster I K V) : Prop where
  seq_le : ∀ c ∈ s.calls, ∀ q, c.phase.seq = some q → 0 < q ∧ q ≤ s.leader.seqNo
  seq_inj : ∀ (i j : ℕ) c c' q, s.calls[i]? = some c → s.calls[j]? = some c' →
    c.phase.seq = some q → c'.phase.seq = some q → i = j
  network : ∀ m ∈ s.network, s.Sound m
  chans : ∀ q ch, s.leader.ackChs.lookup q = some ch → s.ChanSound q ch
  heard : ∀ c ∈ s.calls, ∀ f ∈ c.phase.heard, (∃ ps, c.phase.peers = some ps ∧ f ∈ ps) ∧
    ∀ e ∈ c.entries, e.index ≤ (s.followers f).applied

/-- A new cluster meets the invariant. -/
lemma syncInv_init (leaderID : I) (mode : ReplicationMode) (peers : List I) :
    SyncInv (Cluster.init leaderID mode peers : Cluster I K V) where
  seq_le _ hc := absurd hc not_mem_nil
  seq_inj _ _ _ _ _ hc := by cases hc
  network _ hm := absurd hm not_mem_nil
  chans q ch hch := by
    rw [show (Cluster.init leaderID mode peers : Cluster I K V).leader.ackChs = ∅ from rfl,
      AList.lookup_empty] at hch
    cases hch
  heard _ hc := absurd hc not_mem_nil

section step

variable {s s' : Cluster I K V}

/-- The calls under number `q` after a step were there before it, with the same entries, and the
same peers if they had any. -/
def Keeps (s s' : Cluster I K V) (q : ℕ) : Prop :=
  ∀ c' ∈ s'.calls, c'.phase.seq = some q → ∃ c ∈ s.calls, c.phase.seq = some q ∧
    c'.entries = c.entries ∧ ∀ ps, c.phase.peers = some ps → c'.phase.peers = some ps

/-- Steps that leave the calls alone keep all of them. -/
lemma keeps_of_calls (hcalls : s'.calls = s.calls) (q : ℕ) : Keeps s s' q :=
  fun c hc hq => ⟨c, hcalls ▸ hc, hq, rfl, fun _ hps => hps⟩

/-- A confirmation outlasts a step that keeps the calls of its number. -/
lemma Keeps.confirms (hk : Keeps s s' q) (hf : (s.followers f).applied ≤ (s'.followers f).applied)
    (h : s.Confirms q f) : s'.Confirms q f := by
  intro c' hc' hq
  obtain ⟨c, hc, hq, he, hps⟩ := hk c' hc' hq
  obtain ⟨ps, hp, hmem, happ⟩ := h c hc hq
  exact ⟨ps, hps ps hp, hmem, fun e hce => (happ e (he ▸ hce)).trans hf⟩

/-- So does what a message carries. -/
lemma Keeps.carries (hk : Keeps s s' q) (h : s.Carries q f es) : s'.Carries q f es := by
  intro c' hc' hq
  obtain ⟨c, hc, hq, he, hps⟩ := hk c' hc' hq
  obtain ⟨ps, hp, hmem, rfl⟩ := h c hc hq
  exact ⟨ps, hps ps hp, hmem, he.symm⟩

section mono

variable (hk : ∀ q ≤ s.leader.seqNo, Keeps s s' q) (hno : s.leader.seqNo ≤ s'.leader.seqNo)
  (happ : ∀ f, (s.followers f).applied ≤ (s'.followers f).applied)

include hk hno happ

/-- A step that keeps the numbered calls keeps the messages sound, -/
lemma Cluster.Sound.mono {m : Message I K V} (h : s.Sound m) : s'.Sound m := by
  refine ⟨fun q es k hb => ?_, fun q hb => ?_⟩
  · obtain ⟨hle, hc⟩ := h.1 q es k hb
    exact ⟨hle.trans hno, fun hq => (hk q hle).carries (hc hq)⟩
  · obtain ⟨hle, hc⟩ := h.2 q hb
    exact ⟨hle.trans hno, fun hq => (hk q hle).confirms (happ _) (hc hq)⟩

/-- and the channels. -/
lemma Cluster.ChanSound.mono {ch : AckCh I} (h : s.ChanSound q ch) : s'.ChanSound q ch := by
  obtain ⟨hz, hle, hc⟩ := h
  exact ⟨hz, hle.trans hno, fun f hf => (hk q hle).confirms (happ f) (hc f hf)⟩

end mono

/-- A step that leaves the calls alone: followers only apply more, and what is new in the network
and the channels is in order. -/
lemma SyncInv.of_calls (h : SyncInv s) (hcalls : s'.calls = s.calls)
    (hno : s'.leader.seqNo = s.leader.seqNo)
    (happ : ∀ f, (s.followers f).applied ≤ (s'.followers f).applied)
    (hnet : ∀ m ∈ s'.network, m ∈ s.network ∨ s'.Sound m)
    (hchs : ∀ q ch, s'.leader.ackChs.lookup q = some ch →
      ∃ ch₀, s.leader.ackChs.lookup q = some ch₀ ∧
        ∀ f ∈ ch.queue, f ∈ ch₀.queue ∨ s'.Confirms q f) : SyncInv s' := by
  have hk : ∀ q ≤ s.leader.seqNo, Keeps s s' q := fun q _ => keeps_of_calls hcalls q
  refine ⟨?_, ?_, fun m hm => ?_, fun q ch hch => ?_, fun c hc f hf => ?_⟩
  · rw [hcalls, hno]
    exact h.seq_le
  · rw [hcalls]
    exact h.seq_inj
  · exact (hnet m hm).elim (fun hm => (h.network m hm).mono hk hno.ge happ) id
  · obtain ⟨ch₀, hch₀, hq⟩ := hchs q ch hch
    obtain ⟨hz, hle, hc⟩ := (h.chans q ch₀ hch₀).mono hk hno.ge happ
    exact ⟨hz, hle, fun f hf => (hq f hf).elim (hc f) id⟩
  · obtain ⟨hps, he⟩ := h.heard c (hcalls ▸ hc) f hf
    exact ⟨hps, fun e hce => (he e hce).trans (happ f)⟩

/-- Whom a call hears of in a section is a peer that has applied its entries. -/
lemma SyncInv.heard_before (h : SyncInv s) (hc : c ∈ s.calls) (hf : f ∈ c.phase.heard ∨
      (∃ q ch, c.phase.seq = some q ∧ s.leader.ackChs.lookup q = some ch ∧ f ∈ ch.queue) ∨
      ∃ q ps r, c.phase = .replicate q ps .sync (.unregister r) ∧ ps.length ≤ r.card ∧ f ∈ ps) :
    (∃ ps, c.phase.peers = some ps ∧ f ∈ ps) ∧
      ∀ e ∈ c.entries, e.index ≤ (s.followers f).applied := by
  rcases hf with hf | ⟨q, ch, hq, hch, hf⟩ | ⟨q, ps, r, hphase, hlen, hf⟩
  · exact h.heard c hc f hf
  · obtain ⟨ps, hps, hmem, he⟩ := (h.chans q ch hch).2.2 f hf c hc hq
    exact ⟨⟨ps, hps, hmem⟩, he⟩
  -- as many different peers as there are: all of them
  have hsub : r ⊆ ps.toFinset := by
    intro g hg
    obtain ⟨⟨ps', hps', hg'⟩, -⟩ := h.heard c hc g (by rw [hphase]; exact hg)
    rw [hphase] at hps'
    cases hps'
    exact mem_toFinset.mpr hg'
  have heq : r = ps.toFinset :=
    Finset.eq_of_subset_of_card_le hsub ((toFinset_card_le ps).trans hlen)
  refine h.heard c hc f ?_
  rw [hphase]
  show f ∈ r
  rw [heq]
  exact mem_toFinset.mpr hf

/-- A new call has no number yet. -/
lemma SyncInv.invoke (h : SyncInv s) (hc : c.phase.seq = none) :
    SyncInv { s with calls := s.calls ++ [c] } := by
  have hold : ∀ {x q}, x ∈ s.calls ++ [c] → x.phase.seq = some q → x ∈ s.calls := by
    intro x q hx hq
    rcases mem_append.mp hx with hx | hx
    · exact hx
    · rw [mem_singleton] at hx
      rw [hx, hc] at hq
      cases hq
  have hkeep : ∀ q ≤ s.leader.seqNo, Keeps s { s with calls := s.calls ++ [c] } q :=
    fun q _ x hx hxq => ⟨x, hold hx hxq, hxq, rfl, fun _ hps => hps⟩
  -- the position of a numbered call is an old one
  have hpos : ∀ {i : ℕ} {x q}, (s.calls ++ [c])[i]? = some x → x.phase.seq = some q →
      s.calls[i]? = some x := by
    intro i x q hx hq
    rcases getElem?_concat_inv hx with ⟨-, rfl⟩ | hx
    · rw [hc] at hq
      cases hq
    · exact hx
  refine ⟨fun x hx q hq => h.seq_le x (hold hx hq) q hq,
    fun i j x x' q hx hx' hq hq' => h.seq_inj i j x x' q (hpos hx hq) (hpos hx' hq') hq hq',
    fun m hm => (h.network m hm).mono hkeep le_rfl fun _ => le_rfl,
    fun q ch hch => (h.chans q ch hch).mono hkeep le_rfl fun _ => le_rfl, fun x hx f hf => ?_⟩
  obtain ⟨q, hq⟩ := Phase.seq_of_mem_heard hf
  exact h.heard x (hold hx hq) f hf

section moved

variable {i : ℕ} {c c' : Call I K V} {out : List (Message I K V)}

/-- A section keeps the calls under the numbers drawn before it. -/
lemma keeps_of_seqStep (hc : s.calls[i]? = some c) (hcalls : s'.calls = s.calls.set i c')
    (hstep : SeqStep s.leader c s'.leader c' out) (hq : q ≤ s.leader.seqNo) : Keeps s s' q := by
  intro x hx hxq
  rw [hcalls] at hx
  rcases mem_or_eq_of_mem_set hx with hx | rfl
  · exact ⟨x, hx, hxq, rfl, fun _ hps => hps⟩
  · rcases hstep.seq q hxq with ⟨hcq, he, hps⟩ | ⟨-, hnew, -⟩
    · exact ⟨c, mem_of_getElem? hc, hcq, he, hps⟩
    · omega

section

variable (h : SyncInv s) (hc : s.calls[i]? = some c)

include h hc

/-- No other call has the number of the one that takes a section. -/
lemma SyncInv.eq_of_seq (hstep : SeqStep s.leader c s'.leader c' out) (hq : c'.phase.seq = some q)
    {j : ℕ} {x : Call I K V} (hx : s.calls[j]? = some x) (hxq : x.phase.seq = some q) : i = j := by
  rcases hstep.seq q hq with ⟨hcq, -⟩ | ⟨-, rfl, -⟩
  · exact h.seq_inj i j c x q hc hx hcq hxq
  · have := (h.seq_le x (mem_of_getElem? hx) _ hxq).2
    omega

/-- Numbers stay unique. -/
lemma SyncInv.seq_inj_step (hstep : SeqStep s.leader c s'.leader c' out) (j k : ℕ)
    (x x' : Call I K V) (q : ℕ) (hx : (s.calls.set i c')[j]? = some x)
    (hx' : (s.calls.set i c')[k]? = some x') (hxq : x.phase.seq = some q)
    (hxq' : x'.phase.seq = some q) : j = k := by
  rcases getElem?_set_inv hx with ⟨rfl, rfl⟩ | ⟨-, hj⟩
  · rcases getElem?_set_inv hx' with ⟨rfl, -⟩ | ⟨-, hk⟩
    · rfl
    · exact h.eq_of_seq hc hstep hxq hk hxq'
  · rcases getElem?_set_inv hx' with ⟨rfl, rfl⟩ | ⟨-, hk⟩
    · exact (h.eq_of_seq hc hstep hxq' hj hxq).symm
    · exact h.seq_inj j k x x' q hj hk hxq hxq'

/-- What a section sends carries the entries of its call, which alone has the number. -/
lemma SyncInv.sent_step (hcalls : s'.calls = s.calls.set i c')
    (hstep : SeqStep s.leader c s'.leader c' out) {m : Message I K V} (hm : m ∈ out) {k : ℕ}
    (hb : m.body = .appendEntries q es k) : q ≤ s.leader.seqNo ∧ s'.Carries q m.targetID es := by
  obtain ⟨q', ps, k', hcq, hcq', hps, htgt, hbody⟩ := hstep.sent m hm
  rw [hb] at hbody
  cases hbody
  refine ⟨(h.seq_le c (mem_of_getElem? hc) q hcq).2, fun x hx hxq => ?_⟩
  rw [hcalls] at hx
  obtain ⟨j, hj⟩ := mem_iff_getElem?.mp hx
  rw [getElem?_set] at hj
  split_ifs at hj with hij
  · cases hj
    exact ⟨ps, hps, htgt, rfl⟩
  · exact absurd (h.seq_inj i j c x q hc hj hcq hxq) hij

/-- A section of a call keeps the invariant. -/
lemma SyncInv.advance (hcalls : s'.calls = s.calls.set i c') (hfol : s'.followers = s.followers)
    (hnet : s'.network = s.network ++ out) (hstep : SeqStep s.leader c s'.leader c' out) :
    SyncInv s' := by
  have hmem := mem_of_getElem? hc
  have hkeep : ∀ q ≤ s.leader.seqNo, Keeps s s' q := fun q => keeps_of_seqStep hc hcalls hstep
  have happ : ∀ f, (s.followers f).applied ≤ (s'.followers f).applied := fun f => by rw [hfol]
  have hno := hstep.seqNo_le
  constructor
  case seq_le =>
    intro x hx q hxq
    rw [hcalls] at hx
    rcases mem_or_eq_of_mem_set hx with hx | rfl
    · obtain ⟨hpos, hle⟩ := h.seq_le x hx q hxq
      exact ⟨hpos, hle.trans hno⟩
    rcases hstep.seq q hxq with ⟨hcq, -⟩ | ⟨-, rfl, hnew⟩
    · obtain ⟨hpos, hle⟩ := h.seq_le c hmem q hcq
      exact ⟨hpos, hle.trans hno⟩
    · exact ⟨Nat.succ_pos _, hnew.ge⟩
  case seq_inj =>
    rw [hcalls]
    exact h.seq_inj_step hc hstep
  case network =>
    intro m hm
    rw [hnet] at hm
    rcases mem_append.mp hm with hm | hm
    · exact (h.network m hm).mono hkeep hno happ
    refine ⟨fun q es k hb => ?_, fun q hb => ?_⟩
    · obtain ⟨hle, hcar⟩ := h.sent_step hc hcalls hstep hm hb
      exact ⟨hle.trans hno, fun _ => hcar⟩
    · obtain ⟨q', ps, k', -, -, -, -, hbody⟩ := hstep.sent m hm
      rw [hb] at hbody
      cases hbody
  case chans =>
    intro q ch hch
    rcases hstep.chans q ch hch with ⟨ch₀, hch₀, hsub⟩ | ⟨hnil, hcq⟩
    · obtain ⟨hz, hle, hcon⟩ := (h.chans q ch₀ hch₀).mono hkeep hno happ
      exact ⟨hz, hle, fun f hf => hcon f (hsub f hf)⟩
    obtain ⟨hpos, hle⟩ := h.seq_le c hmem q hcq
    refine ⟨by omega, hle.trans hno, fun f hf => ?_⟩
    rw [hnil] at hf
    cases hf
  case heard =>
    intro x hx f hf
    rw [hcalls] at hx
    rw [hfol]
    rcases mem_or_eq_of_mem_set hx with hx | rfl
    · exact h.heard x hx f hf
    obtain ⟨⟨ps, hps, hfps⟩, hold⟩ := h.heard_before hmem (hstep.heard f hf)
    obtain ⟨q, hq⟩ := Phase.seq_of_peers hps
    obtain ⟨q', hq'⟩ := Phase.seq_of_mem_heard hf
    rcases hstep.seq q' hq' with ⟨-, he, hpeers⟩ | ⟨hnone, -⟩
    · rw [he]
      exact ⟨⟨ps, hpeers ps hps, hfps⟩, hold⟩
    · rw [hq] at hnone
      cases hnone

end

end moved

/-- A reaction keeps the invariant if its acknowledgements confirm their numbers. -/
lemma SyncInv.reactFollower (h : SyncInv s) (f : I)
    (hack : ∀ m ∈ ((s.followers f).react inp).2, ∀ q, m.body = .appendAck q →
      q ≤ s.leader.seqNo ∧ (q ≠ 0 → (s.reactFollower f inp).Confirms q m.senderID)) :
    SyncInv (s.reactFollower f inp) := by
  have hr := reacts_react (s.followers f) inp
  refine h.of_calls rfl rfl (forall_reactFollower
    (fun g n => (s.followers g).applied ≤ n.applied) hr.frame.2 fun _ => le_rfl) (fun m hm => ?_)
    fun q ch hch => ⟨ch, hch, fun g hg => .inl hg⟩
  rcases mem_append.mp hm with hm | hm
  · exact .inl hm
  · refine .inr ⟨fun q es k hb => ?_, hack m hm⟩
    rcases hr.out hm with ⟨q', rfl⟩ | rfl <;> cases hb

/-- Reactions to ticks and to control calls acknowledge nothing. -/
lemma SyncInv.reactFollower_idle (h : SyncInv s) (f : I) (hinp : ∀ msg, inp ≠ .receive msg) :
    SyncInv (s.reactFollower f inp) := by
  refine h.reactFollower f fun m hm q hb => ?_
  obtain ⟨-, msg, -, -, rfl, -⟩ := handled_of_reacts (reacts_react _ _) hm hb
  exact absurd rfl (hinp msg)

/-- A message to the leader leaves the channels as they are, but for the sender of an
acknowledgement, which may be added to the channel of its number. -/
lemma lookup_handleMessage {ch : AckCh I}
    (hch : (l.handleMessage msg).1.ackChs.lookup q = some ch) :
    ∃ ch₀, l.ackChs.lookup q = some ch₀ ∧ ∀ f ∈ ch.queue,
      f ∈ ch₀.queue ∨ msg.body = .appendAck q ∧ f = msg.senderID := by
  have same : l.ackChs.lookup q = some ch → ∃ ch₀, l.ackChs.lookup q = some ch₀ ∧
      ∀ f ∈ ch.queue, f ∈ ch₀.queue ∨ msg.body = .appendAck q ∧ f = msg.senderID :=
    fun hch => ⟨ch, hch, fun f hf => .inl hf⟩
  unfold SingleLeaderNode.handleMessage at hch
  cases hb : msg.body with
  | appendAck q₀ =>
    rw [hb] at hch same
    dsimp only at hch
    cases hch₀ : l.ackChs.lookup q₀ with
    | none =>
      rw [hch₀] at hch
      exact same hch
    | some ch₀ =>
      rw [hch₀] at hch
      dsimp only at hch
      split_ifs at hch with hroom
      · by_cases hq : q = q₀
        · subst hq
          rw [AList.lookup_insert, Option.some.injEq] at hch
          subst hch
          refine ⟨ch₀, hch₀, fun f hf => ?_⟩
          exact (mem_append.mp hf).imp_right fun hf => ⟨rfl, mem_singleton.mp hf⟩
        · rw [AList.lookup_insert_ne hq] at hch
          exact same hch
      · exact same hch
  | sync =>
    rw [hb] at hch same
    dsimp only at hch
    split_ifs at hch <;> exact same hch
  | appendEntries | readRepair => rw [hb] at hch same; exact same hch

/-- A delivered message keeps the invariant, if the follower it reaches can apply it. -/
lemma SyncInv.receive (h : SyncInv s) (hI : ClusterInv s) (hmsg : s.Sound msg)
    (hgap : ∀ q es k, msg.body = .appendEntries q es k → q ≠ 0 →
      msg.targetID ≠ s.leader.id → (s.followers msg.targetID).state.isPaused = false →
      (s.followers msg.targetID).gapless es = true) : SyncInv (s.receive msg) := by
  unfold Cluster.receive
  split_ifs with htgt
  · obtain ⟨⟨chs, hl⟩, hout⟩ := handleMessage_frame s.leader msg
    refine h.of_calls rfl (by rw [hl]) (fun f => le_rfl) (fun m hm => ?_) fun q ch hch => ?_
    · rcases mem_append.mp hm with hm | hm
      · exact .inl hm
      · obtain ⟨k, j, -, rfl⟩ := hout m hm
        refine .inr ⟨fun q es k hb => ?_, nofun⟩
        cases hb
        exact ⟨Nat.zero_le _, fun hq => absurd rfl hq⟩
    · obtain ⟨ch₀, hch₀, hq⟩ := lookup_handleMessage hch
      refine ⟨ch₀, hch₀, fun f hf => (hq f hf).imp_right ?_⟩
      rintro ⟨hb, rfl⟩
      exact (hmsg.2 q hb).2 (h.chans q ch₀ hch₀).1
  · refine h.reactFollower _ fun m hm q hb => ?_
    obtain ⟨hid, msg', es, k, hinp, hbody, hon, happ⟩ :=
      handled_of_reacts (reacts_react _ _) hm hb
    cases hinp
    obtain ⟨hle, hcar⟩ := hmsg.1 q es k hbody
    refine ⟨hle, fun hq c hc hcq => ?_⟩
    obtain ⟨ps, hps, hmem, rfl⟩ := hcar hq c hc hcq
    rw [hid, hI.ids]
    refine ⟨ps, hps, hmem, fun e he => ?_⟩
    rw [reactFollower_self, happ]
    exact le_applied_of_gapless (hgap q c.entries k hbody hq htgt hon) he

/-- The condition, at the delivery of the message of a call. -/
lemma gapless_of_deliver {i : ℕ} (hm : s.network[i]? = some msg)
    (h : s.gapless (.deliver i) = true) {k : ℕ} (hb : msg.body = .appendEntries q es k) (hq : q ≠ 0)
    (htgt : msg.targetID ≠ s.leader.id) (hon : (s.followers msg.targetID).state.isPaused = false) :
    (s.followers msg.targetID).gapless es = true := by
  obtain ⟨sender, target, body⟩ := msg
  dsimp only at hb htgt hon ⊢
  subst hb
  unfold Cluster.gapless at h
  simp only [hm, hq, htgt, hon, decide_eq_true_eq, Bool.false_eq_true, false_or] at h
  exact h

/-- **A gapless step keeps the invariant.** -/
theorem syncInv_step (h : SyncInv s) (hI : ClusterInv s) {a : Action I K V}
    (hgap : s.gapless a = true) : SyncInv (s.step a) := by
  have drop : ∀ j, SyncInv { s with network := s.network.eraseIdx j } := fun j =>
    h.of_calls rfl rfl (fun f => le_rfl) (fun m hm => .inl (mem_of_mem_eraseIdx hm))
      fun q ch hch => ⟨ch, hch, fun f hf => .inl hf⟩
  have hmove := s.move_step a
  generalize s.step a = s' at hmove ⊢
  cases hmove with
  | idle => exact h
  | invoke call c hc =>
    obtain ⟨op, todo, rfl⟩ := ClientCall.exists_of_start hc
    exact h.invoke rfl
  | advance i ts c _ hc => exact h.advance hc rfl rfl rfl (advance_seqStep s.leader c ts)
  | expire i c hc => exact h.advance hc rfl rfl (append_nil _).symm (expire_seqStep s.leader c)
  | deliver i msg ha hm =>
    exact (drop i).receive (hI.of_network fun m hm => mem_of_mem_eraseIdx hm)
      (h.network msg (mem_of_getElem? hm))
      fun q es k hb hq htgt hon => gapless_of_deliver (s := s) hm (ha ▸ hgap) hb hq htgt hon
  | drop i => exact drop i
  | react f inp hinp => exact h.reactFollower_idle f hinp
  | config =>
    exact h.of_calls rfl rfl (fun f => le_rfl) (fun m hm => .inl hm)
      fun q ch hch => ⟨ch, hch, fun f hf => .inl hf⟩

end step

/-- **Sync calls are durable** in gapless runs. In every state, every call that has returned
without error in sync mode has all its entries applied at every follower that was a peer when it
replicated. -/
theorem sync_call_applied (leaderID : I) (mode : ReplicationMode) (peers : List I)
    (as : List (Action I K V))
    (h : Along Cluster.step (fun s a => s.gapless a = true) (Cluster.init leaderID mode peers) as)
    (c : Call I K V) (hc : c ∈ (run Cluster.step (Cluster.init leaderID mode peers) as).calls)
    (ps : List I) (hret : c.result = some (ps, .sync, none)) :
    ∀ f ∈ ps, ∀ e ∈ c.entries,
      e.index ≤ ((run Cluster.step (Cluster.init leaderID mode peers) as).followers f).applied := by
  obtain ⟨-, hS⟩ := run_invariant (fun s => ClusterInv s ∧ SyncInv s)
    (fun s a hgap hs => ⟨clusterInv_step hs.1 a, syncInv_step hs.2 hs.1 hgap⟩) h
    ⟨clusterInv_init leaderID mode peers, syncInv_init leaderID mode peers⟩
  intro f hf
  refine (hS.heard c hc f ?_).2
  unfold Call.result at hret
  split at hret
  · rename_i hphase
    cases hret
    rw [hphase]
    exact mem_toFinset.mpr hf
  · cases hret

/-- All sections of call `c` up to its broadcast. -/
def upToBroadcast (c : ℕ) : List (Action ℕ ℕ ℕ) := List.replicate 9 (.advance c 0)

/-- A write on leader `0` in sync mode that follower `1` applies and acknowledges. -/
def syncRun : List (Action ℕ ℕ ℕ) :=
  [Action.invoke (.write 7 10)] ++ upToBroadcast 0 ++ [Action.deliver 0, .deliver 0] ++
    List.replicate 3 (Action.advance 0 0)

/-- The call returns without error, and its entry is applied at the follower. -/
theorem sync_call_applied_first :
    ∃ c ∈ (run Cluster.step (Cluster.init 0 .sync [1]) syncRun).calls,
      c.result = some ([1], .sync, none) ∧ c.entries.map LogEntry.index = [1] ∧
      ∀ e ∈ c.entries,
        e.index ≤ ((run Cluster.step (Cluster.init 0 .sync [1]) syncRun).followers 1).applied := by
  have hcall : ((run Cluster.step (Cluster.init 0 .sync [1]) syncRun).calls.any fun c =>
      decide (c.result = some ([1], .sync, none) ∧ c.entries.map LogEntry.index = [1])) = true := by
    decide +kernel
  obtain ⟨c, hc, hprop⟩ := any_eq_true.mp hcall
  obtain ⟨hret, hidx⟩ := of_decide_eq_true hprop
  exact ⟨c, hc, hret, hidx, sync_call_applied 0 .sync [1] syncRun (by decide +kernel) c hc [1] hret
    1 mem_cons_self⟩

/-- The message of the first write is lost; the second write goes the same way as the first one of
`syncRun`. -/
def lostRun : List (Action ℕ ℕ ℕ) :=
  [Action.invoke (.write 7 10)] ++ upToBroadcast 0 ++ [Action.drop 0, .invoke (.write 8 20)] ++
    upToBroadcast 1 ++ [Action.deliver 0, .deliver 0] ++ List.replicate 3 (Action.advance 1 0)

/-- The second call returns without error in sync mode. Its entry, index `2`, is only buffered at
the follower, which has applied nothing. -/
theorem buffered_entry_acknowledged :
    Along Cluster.step (fun s a => s.fifo a = true) (Cluster.init 0 .sync [1]) lostRun ∧
    ((run Cluster.step (Cluster.init 0 .sync [1]) lostRun).calls.any fun c =>
      decide (c.result = some ([1], .sync, none) ∧ c.entries.map LogEntry.index = [2])) = true ∧
    ((run Cluster.step (Cluster.init 0 .sync [1]) lostRun).followers 1).applied = 0 := by
  decide +kernel

end Replication.SingleLeader
