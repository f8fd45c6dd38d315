import Replication.Raft.Handlers

/-!
# Raft · LogMoves: what one step does to a node's log

The companion of `VoteMove` for the log, the store and the replication messages.
-/

namespace Replication.Raft

open Storage Log Node Library

variable {N : ℕ} {K V : Type} [DecidableEq K] [Inhabited V]

/-- A message that neither carries entries or a snapshot nor confirms any. -/
def Message.isPlain (m : Message N K V) : Bool :=
  match m.body with
  | .appendEntries _ _ _ _ => false
  | .installSnap _ _ _ _ => false
  | .appendAck success _ => !success
  | _ => true

open RaftNode

/-- What a step can do to the log, the store and the match indices of a node, with the
replication messages it sends. -/
inductive LogMove (self : Fin N) (old : RaftNode N K V) (inp : Input N K V)
    (new : RaftNode N K V) (out : List (Message N K V)) : Prop
  /-- Log and store stay; a new leader starts with empty match indices. -/
  | still (hlog : new.log = old.log) (hdisc : new.discarded = old.discarded)
      (happ : new.applied = old.applied) (hstore : new.store = old.store)
      (hmatch : new.role = .leader →
        (old.role = .leader ∧ new.matchIndex = old.matchIndex) ∨
          ∀ p, p ≠ self → new.matchIndex p = 0)
      (hout : ∀ m ∈ out, m.isPlain = true)
  /-- Log and store stay, and the followers are sent what they miss. -/
  | send (k : ℕ) (hnew : new = { old with spawned := k })
      (hout : ∀ m ∈ out, ∃ p, p ≠ self ∧ m ∈ sendAppend self new p)
      (hinp : inp = .tick .beat ∨ inp = .tick .spawned)
  | propose (op : ClientOp K V) (ts : ℤ) (hinp : inp = .submit op ts)
      (hleader : old.role = .leader) (hnew : new = old.proposed self op ts)
      (hout : ∀ m ∈ out, ∃ p, p ≠ self ∧ m ∈ sendAppend self new p)
  | compact (hinp : inp = .tick .compact) (hlt : old.log.snapshotIndex < old.applied)
      (hterm : old.log.termAt old.applied ≠ 0) (hnew : new = old.compacted) (hout : out = [])
  | append (m : Message N K V) (p pt : ℕ) (es : List (Entry N K V)) (lc : ℕ)
      (hinp : inp = .receive m) (hbody : m.body = .appendEntries p pt es lc)
      (hon : old.state.isPaused = false) (hle : old.currentTerm ≤ m.term)
      (hpass : old.log.matches p pt = true)
      (hnew : new = (old.follow m.senderID m.term).accept p es lc)
      (hout : out = [ackMessage self m.senderID m.term true new.log.lastIndex])
  | install (m : Message N K V) (i t : ℕ) (snap : K → Option (KVEntry (Fin N) K V))
      (inc : List (Entry N K V)) (hinp : inp = .receive m)
      (hbody : m.body = .installSnap i t snap inc) (hon : old.state.isPaused = false)
      (hle : old.currentTerm ≤ m.term)
      (hnew : new = (old.follow m.senderID m.term).install i t snap inc)
      (hout : out = [ackMessage self m.senderID m.term true new.log.lastIndex])
  | count (m : Message N K V) (k : ℕ) (hinp : inp = .receive m)
      (hbody : m.body = .appendAck true k) (hon : old.state.isPaused = false)
      (hle : m.term ≤ old.currentTerm) (hleader : old.role = .leader)
      (hnew : new = advanceCommitLocked self (old.acknowledged m.senderID k)) (hout : out = [])

namespace RaftNode

variable (self : Fin N) (n : RaftNode N K V)

/-- **Every step of a node is one of the seven moves on its log.** -/
theorem react_logMove (inp : Input N K V) :
    LogMove self n inp (n.react self inp).1 (n.react self inp).2 := by
  have h := n.react_reaction self inp
  generalize (n.react self inp).1 = new, (n.react self inp).2 = out at h
  cases h with
  | idle | switch | vote | retry =>
    exact .still rfl rfl rfl rfl (fun h => .inl ⟨h, rfl⟩) (by simp)
  | elect =>
    refine .still rfl rfl rfl rfl (fun h => by cases h) fun m hm => ?_
    obtain ⟨p, -, rfl⟩ := List.mem_map.mp hm
    rfl
  | beat t k =>
    exact .send k rfl (fun m hm => mem_sendAppend_of_mem_maybeHeartbeat self n hm) (by simpa)
  | compact hlt hterm => exact .compact rfl hlt hterm rfl rfl
  | propose op ts hleader =>
    refine .propose op ts rfl hleader rfl fun m hm => ?_
    obtain ⟨p, hp, hm⟩ := List.mem_flatMap.mp hm
    exact ⟨p, mem_peers.mp hp, hm⟩
  | grant | refuse =>
    unfold raised
    split_ifs
    · exact .still rfl rfl rfl rfl (fun h => by cases h) (by simp [Message.isPlain])
    · exact .still rfl rfl rfl rfl (fun h => .inl ⟨h, rfl⟩) (by simp [Message.isPlain])
  | deposed | dethrone => exact .still rfl rfl rfl rfl (fun h => by cases h) (by simp)
  | win =>
    exact .still rfl rfl rfl rfl (fun _ => .inr fun p hp => if_pos (mem_peers.mpr hp)) (by simp)
  | outdated =>
    exact .still rfl rfl rfl rfl (fun h => .inl ⟨h, rfl⟩) (by simp [Message.isPlain, ackMessage])
  | mismatch =>
    exact .still (by simp) (by simp) (by simp) (by simp) (fun h => by simp at h)
      (by simp [Message.isPlain, ackMessage])
  | append m p pt es lc hbody hon hle hpass =>
    exact .append m p pt es lc rfl hbody hon hle hpass rfl rfl
  | install m i t snap inc hbody hon hle =>
    exact .install m i t snap inc rfl hbody hon hle rfl rfl
  | ack m k hbody hon hle hleader => exact .count m k rfl hbody hon hle hleader rfl rfl

end RaftNode

/-- The move of an acting node on its log. -/
lemma Cluster.logMove (s : Cluster N K V) (n : Fin N) (inp : Input N K V) :
    LogMove n (s.nodes n) inp (s.after n inp) (s.sent n inp) :=
  (s.nodes n).react_logMove n inp

namespace LogMove

variable {self : Fin N} {old new : RaftNode N K V} {inp : Input N K V}
  {out : List (Message N K V)} {m : Message N K V}

/-- A message that is sent is plain, the one acknowledgement of a follower, or what a leader sends
to a peer. -/
lemma sent_cases (h : LogMove self old inp new out) (hm : m ∈ out) :
    m.isPlain = true ∨
      (new.role = .follower ∧ out = [m] ∧
        ∃ target, m = ackMessage self target new.currentTerm true new.log.lastIndex) ∨
      ∃ p, p ≠ self ∧ m ∈ sendAppend self new p ∧
        ((∃ k, new = { old with spawned := k } ∧ (inp = .tick .beat ∨ inp = .tick .spawned)) ∨
          ∃ op ts, new = old.proposed self op ts ∧ inp = .submit op ts) := by
  cases h with
  | still _ _ _ _ _ hout => exact .inl (hout m hm)
  | send k hnew hout hinp =>
    obtain ⟨p, hp, hmem⟩ := hout m hm
    exact .inr (.inr ⟨p, hp, hmem, .inl ⟨k, hnew, hinp⟩⟩)
  | propose op ts hinp _ hnew hout =>
    obtain ⟨p, hp, hmem⟩ := hout m hm
    exact .inr (.inr ⟨p, hp, hmem, .inr ⟨op, ts, hnew, hinp⟩⟩)
  | compact _ _ _ _ hout | count _ _ _ _ _ _ _ _ hout => simp [hout] at hm
  | append m' _ _ _ _ _ _ _ hle _ hnew hout =>
    have hterm : new.currentTerm = m'.term := by
      rw [hnew, accept_currentTerm, follow_currentTerm _ hle]
    obtain rfl := List.mem_singleton.mp (hout ▸ hm)
    exact .inr (.inl ⟨by rw [hnew, accept_role, follow_role], hout, m'.senderID, by rw [hterm]⟩)
  | install m' _ _ _ _ _ _ _ hle hnew hout =>
    have hterm : new.currentTerm = m'.term := by
      rw [hnew, install_currentTerm, follow_currentTerm _ hle]
    obtain rfl := List.mem_singleton.mp (hout ▸ hm)
    exact .inr (.inl ⟨by rw [hnew, install_role, follow_role], hout, m'.senderID, by rw [hterm]⟩)

end LogMove

end Replication.Raft
