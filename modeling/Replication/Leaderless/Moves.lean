import Replication.Leaderless.Cluster

/-!
# Leaderless · Moves: what a section of a call can do

The sections of `WriteCall.advance` and `ReadCall.advance`, put into a few moves. Invariants of the
cluster are proved from the moves, not from the code.

* `WriteStep`, `writeStep_advance` — a write applies its entry, sends it, takes acks until it
  returns and after that, closes its channel, and buffers its hints.
* `ReadStep`, `readStep_advance` — a read looks up its own version, sends its requests, takes
  responses, picks the newest version and repairs with it.
-/

set_option linter.unusedSectionVars false

namespace Replication.Leaderless

open Storage Node Clock Library Function List
open HashRing (Hashing)

variable {I K V : Type} [LinearOrder I] [DecidableEq K] [Inhabited V] [DecidableEq V]
  {n : LeaderlessNode I K V} {q : ℕ} {r : I}

/-! ### Channels -/

/-- What a changed table holds is the new entry or an old one. -/
lemma update_eq_some {γ : Type} {f : ℕ → Option γ} {q' : ℕ} {o : Option γ} {x : γ}
    (h : update f q o q' = some x) : q' = q ∧ o = some x ∨ f q' = some x := by
  rw [update_apply] at h
  split_ifs at h with hq
  · exact .inl ⟨hq, h⟩
  · exact .inr h

/-- A channel holds what it held and what was sent. -/
lemma Chan.mem_push {α : Type} {c : Chan α} {a b : α} (h : b ∈ (c.push a).buf) :
    b ∈ c.buf ∨ b = a := by
  unfold Chan.push at h
  split_ifs at h
  · exact (mem_append.mp h).imp_right mem_singleton.mp
  · exact .inl h

/-- A receive takes the first of what a channel holds. -/
lemma Chan.map_pop_eq_some {α β : Type} {o : Option (Chan α)} {g : α × Chan α → β} {b : β}
    (h : (o.bind Chan.pop).map g = some b) :
    ∃ a ch buf, o = some ch ∧ ch.buf = a :: buf ∧ g (a, { ch with buf := buf }) = b := by
  obtain ⟨p, hp, heq⟩ := Option.map_eq_some_iff.mp h
  obtain ⟨ch, rfl, hpop⟩ := Option.bind_eq_some_iff.mp hp
  unfold Chan.pop at hpop
  cases hbuf : ch.buf with
  | nil => simp [hbuf] at hpop
  | cons a buf =>
    rw [hbuf] at hpop
    cases hpop
    exact ⟨a, ch, buf, rfl, hbuf, heq⟩

/-- An ack that is taken was the first in its channel. -/
lemma popAck_eq_some {n' : LeaderlessNode I K V} (h : n.popAck q = some (r, n')) :
    ∃ ch buf, n.writeAcks q = some ch ∧ ch.buf = r :: buf ∧
      n' = { n with writeAcks := update n.writeAcks q (some { ch with buf := buf }) } := by
  obtain ⟨a, ch, buf, hch, hbuf, heq⟩ := Chan.map_pop_eq_some h
  cases heq
  exact ⟨ch, buf, hch, hbuf, rfl⟩

/-- A response that is taken was the first in its channel. -/
lemma popResp_eq_some {n' : LeaderlessNode I K V} {r : ReadResp I K V}
    (h : n.popResp q = some (r, n')) : ∃ ch buf, n.readResps q = some ch ∧ ch.buf = r :: buf ∧
      n' = { n with readResps := update n.readResps q (some { ch with buf := buf }) } := by
  obtain ⟨a, ch, buf, hch, hbuf, heq⟩ := Chan.map_pop_eq_some h
  cases heq
  exact ⟨ch, buf, hch, hbuf, rfl⟩

/-- An empty channel gives back what is sent. -/
lemma Chan.pop_push {α : Type} {ch : Chan α} (hbuf : ch.buf = []) (hcap : 0 < ch.cap) (a : α) :
    (ch.push a).pop = some (a, ⟨ch.cap, []⟩) := by
  unfold Chan.push
  rw [hbuf, length_nil, if_pos hcap]
  rfl

/-- An ack that arrives at an empty channel can be taken. -/
lemma popAck_pushAck {ch : Chan I} (hch : n.writeAcks q = some ch) (hbuf : ch.buf = [])
    (hcap : 0 < ch.cap) (r : I) :
    (n.pushAck q r).popAck q = some (r,
      { n with writeAcks := update n.writeAcks q (some ⟨ch.cap, []⟩) }) := by
  unfold LeaderlessNode.pushAck LeaderlessNode.popAck
  rw [hch]
  dsimp only
  rw [update_self, Option.bind_some, Chan.pop_push hbuf hcap, Option.map_some, update_idem]

/-- A response that arrives at an empty channel can be taken. -/
lemma popResp_pushResp {ch : Chan (ReadResp I K V)} (hch : n.readResps q = some ch)
    (hbuf : ch.buf = []) (hcap : 0 < ch.cap) (r : ReadResp I K V) :
    (n.pushResp q r).popResp q = some (r,
      { n with readResps := update n.readResps q (some ⟨ch.cap, []⟩) }) := by
  unfold LeaderlessNode.pushResp LeaderlessNode.popResp
  rw [hch]
  dsimp only
  rw [update_self, Option.bind_some, Chan.pop_push hbuf hcap, Option.map_some, update_idem]

/-! ### Writes -/

/-- A write takes acks in this stage. -/
def WriteStage.waits (st : WriteStage) : Prop := st = .await ∨ st = .standIns ∨ st = .drain

/-- A write that takes acks has been sent. -/
lemma WriteStage.waits.sent {st : WriteStage} (h : st.waits) : ¬ (st = .apply ∨ st = .send) := by
  rcases h with rfl | rfl | rfl <;> decide

/-- A write that waits takes an ack out of its channel, or none. -/
def WriteCall.Takes (c : WriteCall I K V) (n n' : LeaderlessNode I K V) (acked : List I) : Prop :=
  n' = n ∧ acked = c.acked ∨ ∃ r, n.popAck c.seqNo = some (r, n') ∧ acked = c.acked.insert r

/-- The sections of a write. -/
inductive WriteStep (H : Hashing I K) (c : WriteCall I K V) (n : LeaderlessNode I K V) :
    LeaderlessNode I K V → WriteCall I K V → List (Message I K V) → Prop
  | idle : WriteStep H c n n c []
  | apply (t : ℤ) (hstage : c.stage = .apply) :
      WriteStep H c n (n.applyWrite c.entry t) { c with stage := .send } []
  /-- The entry is sent to the other replicas under the next sequence number. -/
  | send (hstage : c.stage = .send) :
      WriteStep H c n
        { n with
          seqNo := n.seqNo + 1
          writeAcks := Function.update n.writeAcks (n.seqNo + 1)
            (some ⟨n.allNodes.length + 1, []⟩) }
        { c with
          replicas := n.replicasFor H c.entry.key
          targets := (n.replicasFor H c.entry.key).filter fun r => r ≠ n.id
          selfIsReplica := n.id ∈ n.replicasFor H c.entry.key
          seqNo := n.seqNo + 1, stage := .await }
        (((n.replicasFor H c.entry.key).filter fun r => r ≠ n.id).map fun t =>
          .write n.id t (n.seqNo + 1) c.entry none)
  /-- An ack is taken or not, and the call may return or ask stand-ins. -/
  | wait (n' : LeaderlessNode I K V) (acked : List I) (stage : WriteStage)
      (result : Option WriteResult) (msgs : List (Message I K V)) (hstage : c.stage.waits)
      (hnode : c.Takes n n' acked)
      (hstage' : stage.waits) (hdrain : c.stage = .drain → stage = .drain)
      (hresult : result = c.result ∨ c.stage ≠ .drain ∧ (result = some .ok →
        n.writeQuorumMet acked c.replicas c.selfIsReplica = true ∨
          n.sloppy = true ∧ ({ c with acked := acked } : WriteCall I K V).unacked n = []))
      (hmsgs : msgs = [] ∨ n.sloppy = true ∧
        ∀ m ∈ msgs, ∃ t o, m = .write n.id t c.seqNo c.entry (some o)) :
      WriteStep H c n n' { c with acked := acked, stage := stage, result := result } msgs
  | close (hstage : c.stage = .drain) :
      WriteStep H c n { n with writeAcks := Function.update n.writeAcks c.seqNo none }
        { c with stage := .hints } []
  /-- Hints are buffered for the replicas that did not acknowledge. -/
  | hints (hstage : c.stage = .hints) :
      WriteStep H c n
        { n with hints := n.hints ++
            (c.targets.filter fun t => t ∉ c.acked).map fun t => (t, c.entry) }
        { c with stage := .done } []

section write

variable {H : Hashing I K} {c : WriteCall I K V} {n n' : LeaderlessNode I K V}

/-- Only the channels of acks change. -/
lemma WriteCall.Takes.frame {acked : List I} (h : c.Takes n n' acked) :
    ∃ chans, n' = { n with writeAcks := chans } := by
  rcases h with ⟨rfl, -⟩ | ⟨r, hpop, -⟩
  · exact ⟨n'.writeAcks, rfl⟩
  · obtain ⟨ch, buf, -, -, rfl⟩ := popAck_eq_some hpop
    exact ⟨_, rfl⟩

/-- A write that returns success has met its test. -/
lemma finish_ok {met : Bool} (h : (c.finish n met).result = some .ok) : met = true := by
  cases met
  · cases h
  · rfl

/-- Returning to the client is a move. -/
lemma writeStep_finish {acked : List I} {met : Bool}
    (hstage : c.stage = .await ∨ c.stage = .standIns) (hnode : c.Takes n n' acked)
    (hmet : met = true → n.writeQuorumMet acked c.replicas c.selfIsReplica = true ∨
      n.sloppy = true ∧ ({ c with acked := acked } : WriteCall I K V).unacked n = []) :
    WriteStep H c n n' (({ c with acked := acked } : WriteCall I K V).finish n' met) [] := by
  have hwaits : c.stage.waits := hstage.imp_right .inl
  have hne : c.stage ≠ .drain := by
    rcases hstage with hstage | hstage <;> rw [hstage] <;> decide
  refine .wait n' acked .drain _ [] hwaits hnode (.inr (.inr rfl)) (fun _ => rfl) ?_ (.inl rfl)
  refine .inr ⟨hne, fun h => hmet ?_⟩
  exact finish_ok (c := { c with acked := acked }) (n := n') h

/-- Leaving the first ack loop is a move. -/
lemma writeStep_leaveLoop {acked : List I} (hstage : c.stage = .await)
    (hnode : c.Takes n n' acked) :
    WriteStep H c n (({ c with acked := acked } : WriteCall I K V).leaveLoop n' H).1
      (({ c with acked := acked } : WriteCall I K V).leaveLoop n' H).2.1
      (({ c with acked := acked } : WriteCall I K V).leaveLoop n' H).2.2 := by
  have hframe := hnode.frame
  dsimp only [WriteCall.leaveLoop]
  split_ifs with hout hnone hstand
  · refine writeStep_finish (.inl hstage) hnode fun h => .inl ?_
    obtain ⟨chans, rfl⟩ := hframe
    exact h
  all_goals
    obtain ⟨chans, rfl⟩ := hframe
    rw [not_or, Bool.not_eq_false] at hout
  · exact writeStep_finish (.inl hstage) hnode fun _ => .inr ⟨hout.2, hnone⟩
  · exact writeStep_finish (.inl hstage) hnode nofun
  · refine .wait _ acked .standIns c.result _ (.inl hstage) hnode (.inr (.inl rfl))
      (fun h => ?_) (.inl rfl) (.inr ⟨hout.2, fun m hm => ?_⟩)
    · simp [hstage] at h
    · obtain ⟨p, -, rfl⟩ := mem_map.mp hm
      exact ⟨p.1, p.2, rfl⟩

/-- Taking an ack is a move. -/
lemma writeStep_ack (hstage : c.stage.waits) (hpop : n.popAck c.seqNo = some (r, n')) :
    WriteStep H c n n' { c with acked := c.acked.insert r } [] :=
  .wait n' _ c.stage c.result [] hstage (.inr ⟨r, hpop, rfl⟩) hstage (fun h => h) (.inl rfl)
    (.inl rfl)

/-- **Every section of a write is a move.** -/
theorem writeStep_advance (H : Hashing I K) (c : WriteCall I K V) (n : LeaderlessNode I K V)
    (ev : Event I) :
    WriteStep H c n (c.advance n H ev).1 (c.advance n H ev).2.1 (c.advance n H ev).2.2 := by
  unfold WriteCall.advance
  split
  case h_1 hstage => exact .apply _ hstage
  case h_2 hstage => exact .send hstage
  case h_3 hstage =>
    split_ifs with hmet
    · exact writeStep_leaveLoop hstage (.inl ⟨rfl, rfl⟩)
    split
    · exact .idle
    case h_2 hpop =>
      dsimp only
      split_ifs
      · exact writeStep_leaveLoop hstage (.inr ⟨_, hpop, rfl⟩)
      · exact writeStep_ack (.inl hstage) hpop
  case h_4 hstage => exact writeStep_leaveLoop hstage (.inl ⟨rfl, rfl⟩)
  case h_5 hstage =>
    split_ifs with hmet
    · exact writeStep_finish (.inr hstage) (.inl ⟨rfl, rfl⟩) fun _ => .inl hmet
    · split
      · exact .idle
      case h_2 hpop => exact writeStep_ack (.inr (.inl hstage)) hpop
  case h_6 hstage => exact writeStep_finish (.inr hstage) (.inl ⟨rfl, rfl⟩) .inl
  case h_7 hstage =>
    split
    · exact .idle
    case h_2 hpop => exact writeStep_ack (.inr (.inr hstage)) hpop
  case h_8 hstage => exact .close hstage
  case h_9 hstage => exact .hints hstage
  case h_10 => exact .idle

end write

/-! ### Reads -/

/-- A read repairs the coordinator's own copy, or leaves it as it is. -/
def LeaderlessNode.Repairs (n n₁ : LeaderlessNode I K V) (best : KVEntry I K V) : Prop :=
  n₁ = n ∨ ∃ t, n₁ = n.applyWrite best t

/-- Only the store and the clock change. -/
lemma LeaderlessNode.Repairs.frame {n₁ : LeaderlessNode I K V} {best : KVEntry I K V}
    (h : n.Repairs n₁ best) : ∃ hlc store, n₁ = { n with hlc := hlc, store := store } := by
  rcases h with rfl | ⟨t, rfl⟩
  · exact ⟨n₁.hlc, n₁.store, rfl⟩
  · exact ⟨_, _, applyWrite_frame n best t⟩

/-- The sections of a read. -/
inductive ReadStep (H : Hashing I K) (c : ReadCall I K V) (n : LeaderlessNode I K V)
    (ev : Event I) : LeaderlessNode I K V → ReadCall I K V → List (Message I K V) → Prop
  | idle : ReadStep H c n ev n c []
  | readLocal (hstage : c.stage = .readLocal) :
      ReadStep H c n ev n { c with localEntry := n.store.getRaw c.key, stage := .send } []
  | send (t : ℤ) (targets : List I) (hev : ev = .go t targets) (hstage : c.stage = .send)
      (htargets : n.readTargets H c.key
        (max 0 (n.qConfig.R - if c.localEntry.isSome then 1 else 0)) targets = true) :
      ReadStep H c n ev
        { n with
          seqNo := n.seqNo + 1
          readResps := Function.update n.readResps (n.seqNo + 1) (some ⟨targets.length + 1, []⟩) }
        { c with
          remoteNeeded := max 0 (n.qConfig.R - if c.localEntry.isSome then 1 else 0)
          targets := targets, seqNo := n.seqNo + 1, stage := .await }
        (targets.map fun t => .clientRead n.id t (n.seqNo + 1) c.key (n.repairMode = .digest))
  | resp (n' : LeaderlessNode I K V) (r : ReadResp I K V) (hstage : c.stage = .await)
      (hpop : n.popResp c.seqNo = some (r, n')) :
      ReadStep H c n ev n' { c with remoteResps := c.remoteResps ++ [r] } []
  | pick (best : KVEntry I K V) (stage : ReadStage) (hstage : c.stage = .await)
      (hquorum : n.qConfig.R ≤ 1 + c.remoteResps.length) (hbest : newest c.responses = some best)
      (hstage' : stage = .fetch ∧ n.repairMode = .digest ∨ stage = .repair) :
      ReadStep H c n ev n { c with best := some best, stage := stage } []
  | fail (result : ReadResult I K V) (hstage : c.stage = .await)
      (hresult : (∃ k r, result = .quorumNotMet k r) ∨ result = .notFound ∧
        n.qConfig.R ≤ 1 + c.remoteResps.length ∧ newest c.responses = none) :
      ReadStep H c n ev { n with readResps := Function.update n.readResps c.seqNo none }
        { c with stage := .done, result := some result } []
  | fetch (best : KVEntry I K V) (hstage : c.stage = .fetch)
      (hbest : c.best = some best ∨ n.store.getRaw c.key = some best) :
      ReadStep H c n ev n { c with best := some best, stage := .repair } []
  /-- The coordinator repairs its own copy, sends repairs and returns. -/
  | repair (n₁ : LeaderlessNode I K V) (best : KVEntry I K V) (msgs : List (Message I K V))
      (hstage : c.stage = .repair) (hbest : c.best = some best)
      (hn : n.Repairs n₁ best)
      (hmsgs : ∀ m ∈ msgs, ∃ t, m = .readRepair n₁.id t best) :
      ReadStep H c n ev { n₁ with readResps := Function.update n₁.readResps c.seqNo none }
        { c with stage := .done, result := some (ReadCall.answer best) } msgs
  /-- The coordinator repairs its own copy and waits for the repairs it sends. -/
  | repairSync (n₁ : LeaderlessNode I K V) (best : KVEntry I K V) (staleNodes : List I)
      (hstage : c.stage = .repair) (hbest : c.best = some best)
      (hn : n.Repairs n₁ best) :
      ReadStep H c n ev
        { n₁ with
          seqNo := n₁.seqNo + 1
          writeAcks :=
            Function.update n₁.writeAcks (n₁.seqNo + 1) (some ⟨staleNodes.length + 1, []⟩) }
        { c with staleNodes := staleNodes, repairSeqNo := n₁.seqNo + 1, stage := .repairSync }
        (staleNodes.map fun id => .write n₁.id id (n₁.seqNo + 1) best none)
  | ack (n' : LeaderlessNode I K V) (r : I) (hstage : c.stage = .repairSync)
      (hpop : n.popAck c.repairSeqNo = some (r, n')) :
      ReadStep H c n ev n' { c with acked := c.acked.insert r } []
  | leave (best : KVEntry I K V) (hstage : c.stage = .repairSync) (hbest : c.best = some best) :
      ReadStep H c n ev
        { n with
          writeAcks := Function.update n.writeAcks c.repairSeqNo none
          readResps := Function.update n.readResps c.seqNo none }
        { c with stage := .done, result := some (ReadCall.answer best) } []

section read

variable {H : Hashing I K} {c : ReadCall I K V} {n : LeaderlessNode I K V} {ev : Event I}

/-- Leaving the response loop is a move. -/
lemma readStep_leaveLoop (hstage : c.stage = .await) :
    ReadStep H c n ev (c.leaveLoop n).1 (c.leaveLoop n).2.1 (c.leaveLoop n).2.2 := by
  dsimp only [ReadCall.leaveLoop]
  split_ifs with hquorum
  · exact .fail _ hstage (.inl ⟨_, _, rfl⟩)
  have hquorum : n.qConfig.R ≤ 1 + c.remoteResps.length := by
    push_cast at hquorum
    exact not_lt.mp hquorum
  split
  case h_1 hnone => exact .fail _ hstage (.inr ⟨rfl, hquorum, hnone⟩)
  case h_2 best hbest =>
    refine .pick best _ hstage hquorum hbest ?_
    split_ifs with hdigest
    · exact .inl ⟨rfl, hdigest.1⟩
    · exact .inr rfl

/-- Repairing is a move. -/
lemma readStep_sendRepairs {n₁ : LeaderlessNode I K V} {best : KVEntry I K V}
    (hstage : c.stage = .repair) (hbest : c.best = some best)
    (hn : n.Repairs n₁ best) :
    ReadStep H c n ev (c.sendRepairs n₁ best).1 (c.sendRepairs n₁ best).2.1
      (c.sendRepairs n₁ best).2.2 := by
  dsimp only [ReadCall.sendRepairs]
  split_ifs with hstale hsync
  · exact .repairSync n₁ best _ hstage hbest hn
  · refine .repair n₁ best _ hstage hbest hn fun m hm => ?_
    obtain ⟨id, -, rfl⟩ := mem_map.mp hm
    exact ⟨id, rfl⟩
  · exact .repair n₁ best [] hstage hbest hn nofun

/-- **Every section of a read is a move.** -/
theorem readStep_advance (H : Hashing I K) (c : ReadCall I K V) (n : LeaderlessNode I K V)
    (ev : Event I) :
    ReadStep H c n ev (c.advance n H ev).1 (c.advance n H ev).2.1 (c.advance n H ev).2.2 := by
  unfold ReadCall.advance
  split
  case h_1 hstage => exact .readLocal hstage
  case h_2 t targets hstage =>
    dsimp only
    cases htargets : n.readTargets H c.key
      (max 0 (n.qConfig.R - if c.localEntry.isSome then 1 else 0)) targets with
    | false => exact .idle
    | true => exact .send t targets rfl hstage htargets
  case h_3 hstage =>
    split_ifs
    · exact readStep_leaveLoop hstage
    · split
      · exact .idle
      case h_2 hpop => exact .resp _ _ hstage hpop
  case h_4 hstage => exact readStep_leaveLoop hstage
  case h_5 hstage =>
    split
    · exact .idle
    case h_2 best hbest =>
      split_ifs
      · refine .fetch _ hstage ?_
        cases hraw : n.store.getRaw c.key with
        | none => exact .inl hbest
        | some => exact .inr rfl
      · exact .idle
  case h_6 hstage =>
    split
    · exact .idle
    case h_2 best hbest =>
      split_ifs
      · exact .idle
      have hmove : ReadStep H c n .timeout n { c with best := some best, stage := .repair } [] :=
        .fetch best hstage (.inl hbest)
      rwa [← hbest] at hmove
  case h_7 hstage =>
    split
    · exact .idle
    case h_2 best hbest =>
      refine readStep_sendRepairs hstage hbest ?_
      split_ifs
      · exact .inr ⟨_, rfl⟩
      · exact .inl rfl
  case h_8 hstage =>
    split
    · exact .idle
    case h_2 best hbest =>
      dsimp only
      split
      · exact .leave best hstage hbest
      split_ifs
      · exact .leave best hstage hbest
      · split
        · exact .idle
        case h_2 hpop => exact .ack _ _ hstage hpop
  case h_9 => exact .idle

end read

/-! ### Messages -/

/-- What a node that is not paused does with a message. -/
inductive Handled (n : LeaderlessNode I K V) :
    Message I K V → LeaderlessNode I K V → List (Message I K V) → Prop
  | write (sender target : I) (q : ℕ) (e : KVEntry I K V) (o : Option I) (t : ℤ)
      (new : List (I × KVEntry I K V)) (hnew : new = [] ∨ ∃ r, o = some r ∧ new = [(r, e)]) :
      Handled n (.write sender target q e o)
        { n.applyWrite e t with hints := n.hints ++ new } [.writeAck n.id sender q e]
  | hintedHandoff (sender target : I) (e : KVEntry I K V) (t : ℤ) :
      Handled n (.hintedHandoff sender target e) (n.applyWrite e t) [.writeAck n.id sender 0 e]
  | writeAck (sender target : I) (q : ℕ) (e : KVEntry I K V) :
      Handled n (.writeAck sender target q e) (n.pushAck q sender) []
  | clientRead (sender target : I) (q : ℕ) (key : K) (digest : Bool) :
      Handled n (.clientRead sender target q key digest) n [n.readReply sender q key digest]
  | syncAck (sender target : I) (q : ℕ) (key : K) (e : Option (KVEntry I K V))
      (hash : Option (EntryHash I V)) :
      Handled n (.syncAck sender target q key e hash) (n.pushResp q ⟨sender, e, hash⟩) []
  | readRepair (sender target : I) (e : KVEntry I K V) (t : ℤ) :
      Handled n (.readRepair sender target e) (n.applyWrite e t) []

lemma hints_applyWrite (n : LeaderlessNode I K V) (e : KVEntry I K V) (t : ℤ) :
    (n.applyWrite e t).hints = n.hints := by
  rw [applyWrite_frame]

/-- **Every message is handled so.** -/
theorem handled_handleMessage (hup : n.state.isPaused = false) (msg : Message I K V) (t : ℤ) :
    Handled n msg (n.handleMessage msg t).1 (n.handleMessage msg t).2 := by
  unfold LeaderlessNode.handleMessage
  rw [if_neg (by rw [hup]; decide)]
  cases msg with
  | write sender target q e o =>
    have hkeep : Handled n (.write sender target q e o)
        { n.applyWrite e t with hints := (n.applyWrite e t).hints }
          [.writeAck n.id sender q e] := by
      rw [hints_applyWrite, ← append_nil n.hints]
      exact .write sender target q e o t [] (.inl rfl)
    cases o with
    | none => exact hkeep
    | some r =>
      dsimp only
      split_ifs
      · exact hkeep
      · rw [hints_applyWrite]
        exact .write sender target q e (some r) t [(r, e)] (.inr ⟨r, rfl, rfl⟩)
  | hintedHandoff sender target e => exact .hintedHandoff sender target e t
  | writeAck sender target q e => exact .writeAck sender target q e
  | clientRead sender target q key digest => exact .clientRead sender target q key digest
  | syncAck sender target q key e hash => exact .syncAck sender target q key e hash
  | readRepair sender target e => exact .readRepair sender target e t

/-! ### The cluster -/

/-- An action is a client operation, a write or a delete. -/
def Action.IsPut (a : Action I K V) (n : I) (key : K) (value : V) (tombstone : Bool) (t : ℤ) :
    Prop :=
  a = .write n key value t ∧ tombstone = false ∨
    a = .delete n key t ∧ value = default ∧ tombstone = true

/-- What a step can do to a cluster. -/
inductive Move (H : Hashing I K) (s : Cluster I K V) (a : Action I K V) : Cluster I K V → Prop
  | idle : Move H s a s
  | lose (j : ℕ) : Move H s a { s with network := s.network.eraseIdx j }
  | adjust (n : I) (state : NodeState) (skew : ℤ) :
      Move H s a (s.setNode n
        { s.nodes n with state := state, hlc := { (s.nodes n).hlc with skewNanos := skew } })
  | invoke (n : I) (key : K) (value : V) (tombstone : Bool) (t : ℤ)
      (ha : a.IsPut n key value tombstone t) :
      Move H s a
        { s.setNode n ((s.nodes n).newEntry key value tombstone t).1 with
          calls := s.calls ++
            [.write (.start n ((s.nodes n).newEntry key value tombstone t).2)] }
  | startRead (n : I) (key : K) :
      Move H s a { s with calls := s.calls ++ [.read (.start n key)] }
  | write (i : ℕ) (c c' : WriteCall I K V) (n' : LeaderlessNode I K V)
      (msgs : List (Message I K V)) (ha : ∃ ev, a = .advance i ev)
      (hi : s.calls[i]? = some (.write c))
      (hmove : WriteStep H c (s.nodes c.node) n' c' msgs) :
      Move H s a
        ⟨Function.update s.nodes c.node n', s.calls.set i (.write c'), s.network ++ msgs⟩
  | read (i : ℕ) (ev : Event I) (c c' : ReadCall I K V) (n' : LeaderlessNode I K V)
      (msgs : List (Message I K V)) (ha : a = .advance i ev) (hi : s.calls[i]? = some (.read c))
      (hmove : ReadStep H c (s.nodes c.node) ev n' c' msgs) :
      Move H s a
        ⟨Function.update s.nodes c.node n', s.calls.set i (.read c'), s.network ++ msgs⟩
  | deliver (j : ℕ) (msg : Message I K V) (n' : LeaderlessNode I K V)
      (replies : List (Message I K V)) (ha : ∃ t, a = .deliver j t)
      (hj : s.network[j]? = some msg)
      (hmove : Handled (s.nodes msg.target) msg n' replies) :
      Move H s a ⟨Function.update s.nodes msg.target n', s.calls, s.network.eraseIdx j ++ replies⟩
  | hints (n : I) (ha : a = .deliverHints n) :
      Move H s a
        ⟨Function.update s.nodes n { s.nodes n with hints := [] }, s.calls,
          s.network ++ (s.nodes n).hints.map fun h => .hintedHandoff (s.nodes n).id h.1 h.2⟩

lemma move_invoke {H : Hashing I K} {s : Cluster I K V} {a : Action I K V} {n : I} {key : K}
    {value : V} {tombstone : Bool} {t : ℤ} (ha : a.IsPut n key value tombstone t) :
    Move H s a (s.invoke n key value tombstone t) := by
  unfold Cluster.invoke
  split_ifs
  · exact .idle
  · exact .invoke n key value tombstone t ha

/-- **Every step is a move.** -/
theorem move_step (H : Hashing I K) (s : Cluster I K V) (a : Action I K V) :
    Move H s a (s.step H a) := by
  cases a with
  | write => exact move_invoke (.inl ⟨rfl, rfl⟩)
  | delete => exact move_invoke (.inr ⟨rfl, rfl, rfl⟩)
  | read n key =>
    dsimp only [Cluster.step]
    split_ifs
    · exact .idle
    · exact .startRead n key
  | advance i ev =>
    dsimp only [Cluster.step]
    split
    · exact .idle
    case h_2 c hi => exact .write i c _ _ _ ⟨ev, rfl⟩ hi (writeStep_advance H c _ ev)
    case h_3 c hi => exact .read i ev c _ _ _ rfl hi (readStep_advance H c _ ev)
  | deliver j t =>
    dsimp only [Cluster.step]
    split
    · exact .idle
    case h_2 msg hj =>
      cases hpaused : (s.nodes msg.target).state.isPaused with
      | false => exact .deliver j msg _ _ ⟨t, rfl⟩ hj (handled_handleMessage hpaused msg t)
      | true =>
        have hsame : (s.nodes msg.target).handleMessage msg t = (s.nodes msg.target, []) :=
          if_pos hpaused
        rw [hsame, update_eq_self, append_nil]
        exact .lose j
  | drop j => exact .lose j
  | deliverHints n => exact .hints n rfl
  | pause n => exact .adjust n .paused (s.nodes n).hlc.skewNanos
  | resume n => exact .adjust n .online (s.nodes n).hlc.skewNanos
  | setClockSkew n ms =>
    exact .adjust n (s.nodes n).state ((s.nodes n).hlc.setSkewMillis ms).skewNanos

/-! ### Properties of every part -/

section parts

variable {N : LeaderlessNode I K V → Prop} {M : Message I K V → Prop} {C : Call I K V → Prop}
  {H : Hashing I K} {s s' : Cluster I K V} {a : Action I K V}

/-- A property of every node, of every message and of every call. -/
structure Cluster.Parts (N : LeaderlessNode I K V → Prop) (M : Message I K V → Prop)
    (C : Call I K V → Prop) (s : Cluster I K V) : Prop where
  nodes : ∀ n, N (s.nodes n)
  network : ∀ m ∈ s.network, M m
  calls : ∀ c ∈ s.calls, C c

/-- Replacing a node by one with the property keeps it at all nodes. -/
lemma Cluster.Parts.update (h : s.Parts N M C) {n : I} {node : LeaderlessNode I K V}
    (hnode : N node) : ∀ m, N (update s.nodes n node m) :=
  (forall_update_iff s.nodes fun _ => N).mpr ⟨hnode, fun m _ => h.nodes m⟩

lemma Cluster.Parts.append (h : s.Parts N M C) {c : Call I K V} (hc : C c) :
    ∀ x ∈ s.calls ++ [c], C x := by
  intro x hx
  rcases mem_append.mp hx with hx | hx
  · exact h.calls x hx
  · rw [mem_singleton.mp hx]
    exact hc

lemma Cluster.Parts.set (h : s.Parts N M C) {i : ℕ} {c : Call I K V} (hc : C c) :
    ∀ x ∈ s.calls.set i c, C x := by
  intro x hx
  rcases mem_or_eq_of_mem_set hx with hx | rfl
  · exact h.calls x hx
  · exact hc

/-- **What holds of every part holds after a step**, if it holds of what the step makes. -/
theorem parts_move (h : Move H s a s') (hs : s.Parts N M C)
    (hadjust : ∀ n state hlc, N { s.nodes n with state := state, hlc := hlc })
    (hput : ∀ n key value tombstone t, a.IsPut n key value tombstone t →
      s'.calls = s.calls ++ [.write (.start n ((s.nodes n).newEntry key value tombstone t).2)] →
      C (.write (.start n ((s.nodes n).newEntry key value tombstone t).2)))
    (hstart : ∀ n key, C (.read (.start n key)))
    (hwrite : ∀ c c' n' msgs, .write c ∈ s.calls → WriteStep H c (s.nodes c.node) n' c' msgs →
      N n' ∧ C (.write c') ∧ ∀ m ∈ msgs, M m)
    (hread : ∀ i ev c c' n' msgs, a = .advance i ev → s.calls[i]? = some (.read c) →
      s' = ⟨update s.nodes c.node n', s.calls.set i (.read c'), s.network ++ msgs⟩ →
      ReadStep H c (s.nodes c.node) ev n' c' msgs →
      N n' ∧ C (.read c') ∧ ∀ m ∈ msgs, M m)
    (hdeliver : ∀ msg n' replies, msg ∈ s.network → Handled (s.nodes msg.target) msg n' replies →
      N n' ∧ ∀ m ∈ replies, M m)
    (hhints : ∀ n, N { s.nodes n with hints := [] } ∧
      ∀ x ∈ (s.nodes n).hints, M (.hintedHandoff (s.nodes n).id x.1 x.2)) : s'.Parts N M C := by
  have hlose : ∀ j, ∀ m ∈ s.network.eraseIdx j, M m :=
    fun j m hm => hs.network m (mem_of_mem_eraseIdx hm)
  have happend : ∀ {l l' : List (Message I K V)}, (∀ m ∈ l, M m) → (∀ m ∈ l', M m) →
      ∀ m ∈ l ++ l', M m :=
    fun hl hl' m hm => (mem_append.mp hm).elim (hl m) (hl' m)
  cases h with
  | idle => exact hs
  | lose j => exact ⟨hs.nodes, hlose j, hs.calls⟩
  | adjust n state => exact ⟨hs.update (hadjust n state _), hs.network, hs.calls⟩
  | invoke n key value tombstone t ha =>
    exact ⟨hs.update (hadjust n _ _), hs.network,
      hs.append (hput n key value tombstone t ha rfl)⟩
  | startRead n key => exact ⟨hs.nodes, hs.network, hs.append (hstart n key)⟩
  | write i c c' n' msgs _ hi hmove =>
    obtain ⟨hn, hc, hmsgs⟩ := hwrite c c' n' msgs (mem_of_getElem? hi) hmove
    exact ⟨hs.update hn, happend hs.network hmsgs, hs.set hc⟩
  | read i ev c c' n' msgs ha hi hmove =>
    obtain ⟨hn, hc, hmsgs⟩ := hread i ev c c' n' msgs ha hi rfl hmove
    exact ⟨hs.update hn, happend hs.network hmsgs, hs.set hc⟩
  | deliver j msg n' replies _ hj hmove =>
    obtain ⟨hn, hreplies⟩ := hdeliver msg n' replies (mem_of_getElem? hj) hmove
    exact ⟨hs.update hn, happend (hlose j) hreplies, hs.calls⟩
  | hints n =>
    obtain ⟨hn, hsent⟩ := hhints n
    refine ⟨hs.update hn, happend hs.network fun m hm => ?_, hs.calls⟩
    obtain ⟨x, hx, rfl⟩ := mem_map.mp hm
    exact hsent x hx

end parts

end Replication.Leaderless
