import Mathlib.Data.Int.Notation
import Mathlib.Logic.Function.Basic
import Replication.Library.Network

/-!
# Transport · Fabric: the network between the nodes

`internal/transport/fabric.go`. Every pair of nodes has a link with a queue and a worker. `Send`
runs in sections: it decides whether the message passes, reads the time, finds the link, sets the
time of delivery and puts the message into the queue; the worker takes a message, waits, finds the
inbox and offers the message. Sections of any number of calls and workers interleave. Latencies and
the loss of packets are arbitrary: the settings from which the code draws them are left out.

* `System.step` — one section, or one call that changes the fabric.
* `Effect`, `step_cases` — what a section does to the messages in flight (`Move`), why one is lost
  (`Cause`), and what a section leaves alone (`Frame`).
-/

set_option linter.unusedSectionVars false

namespace Replication.Transport

open Library Function List

variable {I π μ : Type} [DecidableEq I] [DecidableEq π]

/-- The fields of a message that the fabric reads. Source: `message.go` `Message`. -/
structure Message (I μ : Type) where
  senderID : I
  targetID : I
  body : μ
  deriving DecidableEq, Repr

/-- The link that a message takes. -/
def Message.link (m : Message I μ) : I × I := (m.senderID, m.targetID)

/-- A group is the list of the nodes that its map holds. Source: `fabric.go` `Partition`. -/
structure Partition (I π : Type) where
  id : π
  groupA : List I
  groupB : List I
  deriving DecidableEq

/-- Source: `fabric.go` `Blocks`. -/
def Partition.blocks (p : Partition I π) (k : I × I) : Bool :=
  (k.1 ∈ p.groupA && k.2 ∈ p.groupB) || (k.1 ∈ p.groupB && k.2 ∈ p.groupA)

/-- The inbox of a node, of 256 or (Raft) 512 places. Source: `inbox_ch` of each node. -/
structure Inbox where
  id : ℕ
  size : ℕ
  deriving DecidableEq

/-- The worker of a link. Source: `fabric.go` `linkWorker`. -/
inductive Worker (I μ : Type) where
  | idle
  | waiting (msg : Message I μ) (due : ℤ)
  /-- The inbox of the target is known. -/
  | offering (msg : Message I μ) (inbox : Inbox)
  | stopped

/-- A queue of messages with their times. Source: `fabric.go` `link`, `timedMsg`. -/
structure Link (I μ : Type) where
  ch : List (Message I μ × ℤ)
  lastAt : Option ℤ
  worker : Worker I μ

/-- Source: `fabric.go` `NetworkFabric`. -/
structure NetworkFabric (I π μ : Type) where
  nodes : I → Option Inbox
  partitions : List (Partition I π)
  links : I × I → Option (Link I μ)
  closed : Bool
  dropped : ℕ

/-- Source: `fabric.go` `getOrCreateLink`, the size of a queue. -/
def linkSize : ℕ := 1024

/-- Calls that change the fabric. -/
inductive Change (I π : Type) where
  | register (n : I) (inbox : Inbox)
  | deregister (n : I)
  | addPartition (p : Partition I π)
  | removePartition (id : π)
  | clearFaults
  | close

namespace NetworkFabric

variable (f : NetworkFabric I π μ)

/-- Source: `fabric.go` `NewNetworkFabric`. -/
def new : NetworkFabric I π μ := ⟨fun _ => none, [], fun _ => none, false, 0⟩

/-- Source: `fabric.go` `isPartitioned`. -/
def isPartitioned (k : I × I) : Bool := f.partitions.any fun p => p.blocks k

/-- The message passes; `lost` is the roll against the rate of the link. Source: `fabric.go` `Send`,
the sections under the locks of the fabric and of the random source. -/
def admits (m : Message I μ) (lost : Bool) : Bool :=
  (f.nodes m.targetID).isSome && !f.isPartitioned m.link && !lost

/-- Replace a link. -/
def setLink (k : I × I) (l : Link I μ) : NetworkFabric I π μ :=
  { f with links := update f.links k (some l) }

/-- Source: `fabric.go` `getOrCreateLink`, for a fabric that is not closed. -/
def openLink (k : I × I) : NetworkFabric I π μ :=
  match f.links k with
  | none => f.setLink k ⟨[], none, .idle⟩
  | some _ => f

/-- Source: `fabric.go` `Register`, `Deregister`, `AddPartition`, `RemovePartition`, `ClearFaults`,
`Close`. -/
def change : Change I π → NetworkFabric I π μ
  | .register n inbox => { f with nodes := update f.nodes n (some inbox) }
  | .deregister n => { f with nodes := update f.nodes n none }
  | .addPartition p => { f with partitions := f.partitions.filter (·.id ≠ p.id) ++ [p] }
  | .removePartition id => { f with partitions := f.partitions.filter (·.id ≠ id) }
  | .clearFaults => { f with partitions := [] }
  | .close => { f with closed := true }

end NetworkFabric

/-! ### Calls and workers -/

/-- How far a call of `Send` has come. Source: `fabric.go` `Send`. -/
inductive Stage where
  | admitted (latencyMs : ℤ)
  | timed (due : ℤ)
  | linked (due : ℤ)
  | stamped (due : ℤ)
  | returned

/-- A call of `Send`. -/
structure SendCall (I μ : Type) where
  msg : Message I μ
  stage : Stage

/-- A fabric with the calls of `Send`, the inboxes and the time in nanoseconds. -/
structure System (I π μ : Type) where
  fabric : NetworkFabric I π μ
  inboxes : Inbox → List (Message I μ)
  sends : List (SendCall I μ)
  now : ℤ
  trace : List (NetEvent (Message I μ))

/-- The steps of the fabric and of its users. -/
inductive Action (I π μ : Type) where
  | send (m : Message I μ) (lost : Bool) (latencyMs : ℤ)
  /-- The next section of a call. -/
  | advance (i : ℕ)
  /-- The next section of a worker. -/
  | work (k : I × I)
  /-- A worker sees that the fabric is closed. -/
  | quit (k : I × I)
  /-- A node takes a message from its inbox. -/
  | receive (inbox : Inbox)
  | tick (d : ℕ)
  | change (c : Change I π)

namespace System

variable (s : System I π μ)

/-- A new fabric; nothing has been sent. -/
def new (now : ℤ) : System I π μ := ⟨.new, fun _ => [], [], now, []⟩

/-- A call returns; the message is lost unless it is in a queue. -/
def returns (i : ℕ) (m : Message I μ) : System I π μ :=
  { s with sends := s.sends.set i ⟨m, .returned⟩, trace := s.trace ++ [.sent m] }

/-- Replace a link of the fabric. -/
def setLink (k : I × I) (l : Link I μ) : System I π μ := { s with fabric := s.fabric.setLink k l }

/-- A full queue or inbox. -/
def shed : System I π μ := { s with fabric := { s.fabric with dropped := s.fabric.dropped + 1 } }

/-- The sections of `Send` after the message has passed. Source: `fabric.go` `Send`. -/
def advance (i : ℕ) (c : SendCall I μ) : System I π μ :=
  match c.stage, s.fabric.links c.msg.link with
  | .admitted latencyMs, _ =>
    { s with sends := s.sends.set i ⟨c.msg, .timed (s.now + latencyMs * 1000000)⟩ }
  | .timed due, _ =>
    if s.fabric.closed then s.returns i c.msg
    else
      { s with
        fabric := s.fabric.openLink c.msg.link
        sends := s.sends.set i ⟨c.msg, .linked due⟩ }
  | .linked due, some l =>
    -- no earlier than the message before it on the link
    let due' := max due (l.lastAt.getD due)
    { s.setLink c.msg.link { l with lastAt := some due' } with
      sends := s.sends.set i ⟨c.msg, .stamped due'⟩ }
  | .stamped due, some l =>
    if l.ch.length < linkSize then
      (s.setLink c.msg.link { l with ch := l.ch ++ [(c.msg, due)] }).returns i c.msg
    else s.shed.returns i c.msg
  | _, _ => s

/-- One section of a worker. Source: `fabric.go` `linkWorker`. -/
def work (k : I × I) (l : Link I μ) : System I π μ :=
  match l.worker, l.ch with
  | .idle, t :: ch => s.setLink k { l with ch := ch, worker := .waiting t.1 t.2 }
  | .waiting m due, _ =>
    if s.now < due then s
    else
      match s.fabric.nodes m.targetID with
      | none => s.setLink k { l with worker := .idle }
      | some inbox => s.setLink k { l with worker := .offering m inbox }
  | .offering m inbox, _ =>
    let s' := s.setLink k { l with worker := .idle }
    if (s.inboxes inbox).length < inbox.size then
      { s' with
        inboxes := update s.inboxes inbox (s.inboxes inbox ++ [m])
        trace := s.trace ++ [.delivered m] }
    else s'.shed
  | _, _ => s

/-- A worker that waits for a message or for its time stops. Source: `fabric.go` `linkWorker`. -/
def quit (k : I × I) (l : Link I μ) : System I π μ :=
  match l.worker with
  | .offering _ _ => s
  | _ => if s.fabric.closed then s.setLink k { l with worker := .stopped } else s

/-- One step of any call, worker or node. -/
def step : Action I π μ → System I π μ
  | .send m lost latencyMs =>
    if s.fabric.admits m lost then { s with sends := s.sends ++ [⟨m, .admitted latencyMs⟩] }
    else { s with trace := s.trace ++ [.sent m] }
  | .advance i => (s.sends[i]?).elim s (s.advance i)
  | .work k => (s.fabric.links k).elim s (s.work k)
  | .quit k => (s.fabric.links k).elim s (s.quit k)
  | .receive inbox => { s with inboxes := update s.inboxes inbox (s.inboxes inbox).tail }
  | .tick d => { s with now := s.now + d }
  | .change c => { s with fabric := s.fabric.change c }

end System

/-! ### Messages in flight -/

/-- The message that a worker has in its hands. -/
def Worker.msgs : Worker I μ → List (Message I μ)
  | .waiting m _ => [m]
  | .offering m _ => [m]
  | _ => []

/-- What is on a link: with the worker, then in the channel. -/
def Link.msgs (l : Link I μ) : List (Message I μ) := l.worker.msgs ++ l.ch.map Prod.fst

/-- The message of a call that has not returned. -/
def SendCall.unsent (c : SendCall I μ) : Option (Message I μ) :=
  match c.stage with
  | .returned => none
  | _ => some c.msg

namespace System

variable {s s' : System I π μ} {a : Action I π μ} {k : I × I} {l : Link I μ}

/-- The messages of a link, the oldest first. -/
def inFlight (s : System I π μ) (k : I × I) : List (Message I μ) :=
  ((s.fabric.links k).map Link.msgs).getD []

/-- The messages of calls that have not returned. -/
def pending (s : System I π μ) : List (Message I μ) := s.sends.filterMap SendCall.unsent

lemma inFlight_setLink {ms : List (Message I μ)}
    (h : s'.fabric.links = update s.fabric.links k (some l)) (hmsgs : l.msgs = ms) :
    s'.inFlight = update s.inFlight k ms := by
  subst hmsgs
  funext k'
  rw [inFlight, h]
  by_cases hk : k' = k
  · subst hk
    simp
  · simp [hk, inFlight]

lemma inFlight_of_links (h : s.fabric.links k = some l) : s.inFlight k = l.msgs := by
  rw [inFlight, h]
  rfl

/-- Why a message is lost in a step. -/
inductive Cause (s : System I π μ) (a : Action I π μ) (s' : System I π μ) : Prop
  | refused (m : Message I μ) (lost : Bool) (latencyMs : ℤ) (ha : a = .send m lost latencyMs)
      (hadm : s.fabric.admits m lost = false)
  | closed (h : s.fabric.closed = true)
  | unknown (k : I × I) (m : Message I μ) (hm : m ∈ s.inFlight k)
      (h : s.fabric.nodes m.targetID = none)
  | shed (h : s'.fabric.dropped = s.fabric.dropped + 1)

/-- What a step does to the messages in flight. -/
inductive Move (s : System I π μ) (a : Action I π μ) (s' : System I π μ) : Prop
  | quiet (hflight : s'.inFlight = s.inFlight) (htrace : s'.trace = s.trace)
  | refuse (m : Message I μ) (hflight : s'.inFlight = s.inFlight)
      (htrace : s'.trace = s.trace ++ [.sent m]) (hwhy : Cause s a s')
  | enter (m : Message I μ) (hm : m ∈ s.pending)
      (hflight : s'.inFlight = update s.inFlight m.link (s.inFlight m.link ++ [m]))
      (htrace : s'.trace = s.trace ++ [.sent m])
  | deliver (k : I × I) (m : Message I μ) (rest : List (Message I μ))
      (hk : s.inFlight k = m :: rest) (hflight : s'.inFlight = update s.inFlight k rest)
      (htrace : s'.trace = s.trace ++ [.delivered m])
  | lose (k : I × I) (m : Message I μ) (rest : List (Message I μ))
      (hk : s.inFlight k = m :: rest) (hflight : s'.inFlight = update s.inFlight k rest)
      (htrace : s'.trace = s.trace) (hwhy : Cause s a s')

/-- What calls of `Send` and workers leave alone, once the message has passed. -/
structure Frame (s s' : System I π μ) : Prop where
  nodes : s'.fabric.nodes = s.fabric.nodes
  closed : s'.fabric.closed = s.fabric.closed
  dropped : s.fabric.dropped ≤ s'.fabric.dropped
  pending : s'.pending ⊆ s.pending

/-- What a section of a call or of a worker does. -/
structure Effect (s : System I π μ) (a : Action I π μ) (s' : System I π μ) : Prop where
  frame : Frame s s'
  move : Move s a s'

lemma Effect.refl (s : System I π μ) : Effect s a s :=
  ⟨⟨rfl, rfl, Nat.le_refl _, Subset.refl _⟩, .quiet rfl rfl⟩

lemma Effect.elim {α : Type} {o : Option α} {f : α → System I π μ}
    (h : ∀ x, o = some x → Effect s a (f x)) : Effect s a (o.elim s f) := by
  cases o with
  | none => exact .refl s
  | some x => exact h x rfl

/-- A link is replaced by one with the same messages. -/
lemma Effect.same (hl : s.fabric.links k = some l) {l' : Link I μ}
    (hlinks : s'.fabric.links = update s.fabric.links k (some l')) (hmsgs : l'.msgs = l.msgs)
    (hframe : Frame s s') (htrace : s'.trace = s.trace) : Effect s a s' := by
  refine ⟨hframe, .quiet ?_ htrace⟩
  rw [inFlight_setLink hlinks hmsgs, ← inFlight_of_links hl, update_eq_self]

/-- A step of a send. -/
lemma advance_effect {i : ℕ} {c : SendCall I μ} (hc : s.sends[i]? = some c) :
    Effect s a (s.advance i c) := by
  obtain ⟨m, stage⟩ := c
  by_cases hret : stage = .returned
  · subst hret
    exact .refl s
  have hmem : m ∈ s.pending := mem_filterMap.mpr ⟨_, mem_of_getElem? hc, by
    cases stage <;> simp_all [SendCall.unsent]⟩
  have hset : ∀ stage', (s.sends.set i ⟨m, stage'⟩).filterMap SendCall.unsent ⊆ s.pending := by
    intro stage' m' hm'
    obtain ⟨c, hc', hsome⟩ := mem_filterMap.mp hm'
    rcases mem_or_eq_of_mem_set hc' with hc' | rfl
    · exact mem_filterMap.mpr ⟨c, hc', hsome⟩
    · have heq : m = m' := by cases stage' <;> simp_all [SendCall.unsent]
      exact heq ▸ hmem
  have hframe : ∀ {s' : System I π μ} stage', s'.fabric.nodes = s.fabric.nodes →
      s'.fabric.closed = s.fabric.closed → s.fabric.dropped ≤ s'.fabric.dropped →
      s'.sends = s.sends.set i ⟨m, stage'⟩ → Frame s s' := fun stage' hn hcl hd hs =>
    ⟨hn, hcl, hd, by rw [pending, hs]; exact hset stage'⟩
  cases stage with
  | returned => exact absurd rfl hret
  | admitted => exact ⟨hframe _ rfl rfl (Nat.le_refl _) rfl, .quiet rfl rfl⟩
  | timed =>
    unfold advance NetworkFabric.openLink
    dsimp only
    split_ifs with hclosed
    · exact ⟨hframe _ rfl rfl (Nat.le_refl _) rfl, .refuse m rfl rfl (.closed hclosed)⟩
    cases hl : s.fabric.links m.link with
    | some => exact ⟨hframe _ rfl rfl (Nat.le_refl _) rfl, .quiet rfl rfl⟩
    | none =>
      refine ⟨hframe _ rfl rfl (Nat.le_refl _) rfl,
        .quiet ((inFlight_setLink rfl rfl).trans ?_) rfl⟩
      rw [update_eq_iff]
      exact ⟨by simp [inFlight, hl, Link.msgs, Worker.msgs], fun _ _ => rfl⟩
  | linked =>
    cases hl : s.fabric.links m.link with
    | none =>
      simp only [advance, hl]
      exact .refl s
    | some =>
      simp only [advance, hl]
      exact .same hl rfl rfl (hframe _ rfl rfl (Nat.le_refl _) rfl) rfl
  | stamped =>
    cases hl : s.fabric.links m.link with
    | none =>
      simp only [advance, hl]
      exact .refl s
    | some =>
      simp only [advance, hl]
      split_ifs with hfull
      · refine ⟨hframe _ rfl rfl (Nat.le_refl _) rfl,
          .enter m hmem ((inFlight_setLink rfl rfl).trans ?_) rfl⟩
        rw [inFlight_of_links hl]
        simp [Link.msgs]
      · exact ⟨hframe _ rfl rfl (Nat.le_succ _) rfl, .refuse m rfl rfl (.shed rfl)⟩

/-- A step of a worker. -/
lemma work_effect (hl : s.fabric.links k = some l) : Effect s a (s.work k l) := by
  obtain ⟨ch, lastAt, worker⟩ := l
  have hk : s.inFlight k = worker.msgs ++ ch.map Prod.fst := inFlight_of_links hl
  cases worker with
  | idle =>
    cases ch with
    | nil => exact .refl s
    | cons => exact .same hl rfl rfl ⟨rfl, rfl, Nat.le_refl _, Subset.refl _⟩ rfl
  | waiting m =>
    unfold work
    dsimp only
    split_ifs
    · exact .refl s
    split
    · rename_i hnode
      exact ⟨⟨rfl, rfl, Nat.le_refl _, Subset.refl _⟩, .lose k m (ch.map Prod.fst) hk
        (inFlight_setLink rfl rfl) rfl (.unknown k m (hk ▸ mem_cons_self) hnode)⟩
    · exact .same hl rfl rfl ⟨rfl, rfl, Nat.le_refl _, Subset.refl _⟩ rfl
  | offering m =>
    unfold work
    dsimp only
    split_ifs
    · exact ⟨⟨rfl, rfl, Nat.le_refl _, Subset.refl _⟩,
        .deliver k m (ch.map Prod.fst) hk (inFlight_setLink rfl rfl) rfl⟩
    · exact ⟨⟨rfl, rfl, Nat.le_succ _, Subset.refl _⟩,
        .lose k m (ch.map Prod.fst) hk (inFlight_setLink rfl rfl) rfl (.shed rfl)⟩
  | stopped => exact .refl s

lemma quit_effect (hl : s.fabric.links k = some l) : Effect s a (s.quit k l) := by
  obtain ⟨ch, lastAt, worker⟩ := l
  have hk : s.inFlight k = worker.msgs ++ ch.map Prod.fst := inFlight_of_links hl
  cases worker with
  | offering => exact .refl s
  | waiting m =>
    unfold quit
    dsimp only
    split_ifs with hclosed
    · exact ⟨⟨rfl, rfl, Nat.le_refl _, Subset.refl _⟩,
        .lose k m (ch.map Prod.fst) hk (inFlight_setLink rfl rfl) rfl (.closed hclosed)⟩
    · exact .refl s
  | _ =>
    unfold quit
    dsimp only
    split_ifs
    · exact .same hl rfl rfl ⟨rfl, rfl, Nat.le_refl _, Subset.refl _⟩ rfl
    · exact .refl s

/-- **What a step does**: it changes the fabric, decides about a message, or is a section of a call
or of a worker. -/
theorem step_cases (s : System I π μ) (a : Action I π μ) :
    (∃ c, a = .change c) ∨ (∃ m lost latencyMs, a = .send m lost latencyMs) ∨
      Effect s a (s.step a) := by
  cases a with
  | change c => exact .inl ⟨c, rfl⟩
  | send m lost latencyMs => exact .inr (.inl ⟨m, lost, latencyMs, rfl⟩)
  | advance i => exact .inr (.inr (.elim fun c hc => advance_effect hc))
  | work k => exact .inr (.inr (.elim fun l hl => work_effect hl))
  | quit k => exact .inr (.inr (.elim fun l hl => quit_effect hl))
  | receive | tick => exact .inr (.inr ⟨⟨rfl, rfl, Nat.le_refl _, Subset.refl _⟩, .quiet rfl rfl⟩)

/-- The messages in flight, in every step. -/
lemma step_move (s : System I π μ) (a : Action I π μ) : Move s a (s.step a) := by
  rcases step_cases s a with ⟨c, rfl⟩ | ⟨m, lost, latencyMs, rfl⟩ | heffect
  · cases c <;> exact .quiet rfl rfl
  · cases hadm : s.fabric.admits m lost with
    | false =>
      simp only [step, hadm]
      exact .refuse m rfl rfl (.refused m lost latencyMs rfl hadm)
    | true =>
      simp only [step, hadm]
      exact .quiet rfl rfl
  · exact heffect.move

end System

end Replication.Transport
