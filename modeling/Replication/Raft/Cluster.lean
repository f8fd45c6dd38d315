import Replication.Library.Run
import Replication.Raft.Node

/-!
# Raft · Cluster: the nodes, the fabric and the client calls

A cluster is `N` nodes, the messages in flight and the client calls made so far. One action is
one atomic step: a ticker event of a node, a client proposal, the delivery or the loss of a
message, or one round of the wait loop of a client call.

* The fabric (`internal/transport/fabric.go`) delivers a sent message at most once, after any
  delay, or drops it. `deliver i` hands over the `i`-th message in flight, so messages may
  overtake each other; `fifo` is the condition that they do not on any one link.
* `Action.poll` and `Action.expire` are the rounds of the loop in `proposeAndWait`: the commit
  index is compared with the index of the call, or the deadline has passed.
-/

set_option linter.unusedSectionVars false

namespace Replication.Raft

open Storage Log Node Library

variable {N : ℕ} {K V : Type} {n : Fin N}

/-- What the goroutines of a node other than the message loop do, and the orchestrator's
switch. -/
inductive Tick where
  /-- `elect.C` in `runTicker`; `expired` is the outcome of the timeout test in `maybeElect`. -/
  | elect (expired : Bool)
  /-- `beat.C` in `runTicker`, its heartbeat. -/
  | beat
  /-- The goroutine started by `becomeLeaderLocked`. -/
  | spawned
  /-- `beat.C` in `runTicker`, its compaction. -/
  | compact
  | pause
  | resume
  deriving DecidableEq

/-- A client's `Write` or `Delete`. -/
inductive ClientOp (K V : Type) where
  | write (key : K) (value : V)
  | delete (key : K)

namespace ClientOp

/-- The key that a call is about. -/
def key : ClientOp K V → K
  | write k _ => k
  | delete k => k

/-- The value proposed: `Delete` passes `nil`. -/
def value [Inhabited V] : ClientOp K V → V
  | write _ v => v
  | delete _ => default

/-- The kind of the entry that a call proposes. -/
def op : ClientOp K V → OpType
  | write _ _ => .set
  | delete _ => .delete

end ClientOp

/-- What a node reacts to. -/
inductive Input (N : ℕ) (K V : Type) where
  | tick (t : Tick)
  /-- A client call, with the hybrid-clock reading it is stamped with. -/
  | submit (op : ClientOp K V) (ts : ℤ)
  | receive (m : Message N K V)

/-- The ticker events. Source: `raft.go` `runTicker`, `becomeLeaderLocked`; `base.go` `Pause`,
`Resume`. -/
def RaftNode.onTick (self : Fin N) (n : RaftNode N K V) :
    Tick → RaftNode N K V × List (Message N K V)
  | .elect expired => if n.state.isPaused then (n, []) else n.maybeElect self expired
  | .beat => if n.state.isPaused then (n, []) else (n, n.maybeHeartbeat self)
  | .spawned =>
    if n.spawned = 0 then (n, [])
    else ({ n with spawned := n.spawned - 1 }, n.maybeHeartbeat self)
  | .compact => if n.state.isPaused then (n, []) else (n.maybeCompact, [])
  | .pause => ({ n with state := .paused }, [])
  | .resume => ({ n with state := .online }, [])

variable [DecidableEq K] [Inhabited V]

/-- One atomic step of a node: its new state and the messages it sends. -/
def RaftNode.react (self : Fin N) (n : RaftNode N K V) :
    Input N K V → RaftNode N K V × List (Message N K V)
  | .tick t => n.onTick self t
  | .submit op ts =>
    match n.propose self op.key op.value op.op ts with
    | .error _ => (n, [])
    | .ok (n', _, out) => (n', out)
  | .receive m => n.handleMessage self m

/-- How far a client call has come. -/
inductive CallStatus where
  | waiting
  /-- Returned `nil`. -/
  | succeeded
  | timedOut
  deriving DecidableEq

/-- A `Write` or `Delete` that a node has accepted. Source: `raft.go` `proposeAndWait`. -/
structure Call (N : ℕ) (K V : Type) where
  node : Fin N
  /-- The entry it appended, with its index and term. -/
  entry : Entry N K V
  status : CallStatus

/-- A cluster: its nodes, the messages in flight and the client calls. -/
structure Cluster (N : ℕ) (K V : Type) where
  nodes : Fin N → RaftNode N K V
  /-- The messages in flight, in the order they were sent. -/
  network : List (Message N K V)
  /-- The client calls, in the order they were made. -/
  calls : List (Call N K V)

/-- One atomic step of a cluster. -/
inductive Action (N : ℕ) (K V : Type) where
  | tick (n : Fin N) (t : Tick)
  | submit (n : Fin N) (op : ClientOp K V) (ts : ℤ)
  /-- Delivery of the `i`-th message in flight. -/
  | deliver (i : ℕ)
  /-- Loss of the `i`-th message in flight. -/
  | drop (i : ℕ)
  /-- One test of the wait loop of a call. -/
  | poll (c : ℕ)
  /-- The deadline of a call has passed. -/
  | expire (c : ℕ)

variable {a : Action N K V} {s : Cluster N K V}

namespace Cluster

/-- A new cluster of `N` nodes. Source: `orchestrator.go` `createRaftCluster`. -/
def init : Cluster N K V where
  nodes _ := .new
  network := []
  calls := []

/-- The node an action runs on, and what it reacts to. -/
def input (s : Cluster N K V) : Action N K V → Option (Fin N × Input N K V)
  | .tick n t => some (n, .tick t)
  | .submit n op ts => some (n, .submit op ts)
  | .deliver i => (s.network[i]?).map fun m => (m.targetID, .receive m)
  | _ => none

/-- The messages still in flight when an action takes effect. -/
def remaining (s : Cluster N K V) : Action N K V → List (Message N K V)
  | .deliver i => s.network.eraseIdx i
  | .drop i => s.network.eraseIdx i
  | _ => s.network

/-- One test of the wait loop: `CommitIndex() >= idx` returns success. Source: `raft.go`
`proposeAndWait`. -/
def pollCall (s : Cluster N K V) (c : Call N K V) : Call N K V :=
  if c.status = .waiting ∧ c.entry.index ≤ (s.nodes c.node).log.commitIndex then
    { c with status := .succeeded }
  else c

/-- The deadline of a call has passed: a call that still waits fails. -/
def expireCall (c : Call N K V) : Call N K V :=
  if c.status = .waiting then { c with status := .timedOut } else c

/-- The client calls after an action. A call that is refused leaves no record. -/
def nextCalls (s : Cluster N K V) : Action N K V → List (Call N K V)
  | .submit n op ts =>
    match (s.nodes n).propose n op.key op.value op.op ts with
    | .error _ => s.calls
    | .ok _ =>
      s.calls ++ [⟨n, (s.nodes n).proposal n op.key op.value op.op ts, .waiting⟩]
  | .poll c => s.calls.modify c s.pollCall
  | .expire c => s.calls.modify c expireCall
  | _ => s.calls

/-- One step of the cluster: the node acted on reacts and its messages go out last. -/
def step (s : Cluster N K V) (a : Action N K V) : Cluster N K V :=
  match s.input a with
  | none => { s with network := s.remaining a, calls := s.nextCalls a }
  | some (n, inp) =>
    { nodes := Function.update s.nodes n ((s.nodes n).react n inp).1
      network := s.remaining a ++ ((s.nodes n).react n inp).2
      calls := s.nextCalls a }

/-- A node after it has reacted. -/
abbrev after (s : Cluster N K V) (n : Fin N) (inp : Input N K V) : RaftNode N K V :=
  ((s.nodes n).react n inp).1

/-- What a node sends when it reacts. -/
abbrev sent (s : Cluster N K V) (n : Fin N) (inp : Input N K V) : List (Message N K V) :=
  ((s.nodes n).react n inp).2

/-- A link delivers in the order of sending: no earlier message of the same sender to the same
receiver is still in flight. Source: `fabric.go` `link`. -/
def fifo (s : Cluster N K V) : Action N K V → Bool
  | .deliver i =>
    match s.network[i]? with
    | none => true
    | some m => (s.network.take i).all fun m' =>
      decide ¬ (m'.senderID = m.senderID ∧ m'.targetID = m.targetID)
  | _ => true

/-- The step compacts no log. -/
def NoCompaction (_ : Cluster N K V) : Action N K V → Prop
  | .tick _ .compact => False
  | _ => True

lemma step_of_input_none (h : s.input a = none) :
    s.step a = { s with network := s.remaining a, calls := s.nextCalls a } := by
  rw [step, h]

/-- An action takes messages out of the network and adds none. -/
lemma remaining_sublist : (s.remaining a).Sublist s.network := by
  cases a with
  | deliver i | drop i => exact List.eraseIdx_sublist _ _
  | _ => exact .refl _

lemma mem_of_mem_remaining {m : Message N K V} (h : m ∈ s.remaining a) : m ∈ s.network :=
  remaining_sublist.subset h

/-- A message that a node receives is one in flight, addressed to it. -/
lemma deliver_of_input_receive {m : Message N K V} (h : s.input a = some (n, .receive m)) :
    ∃ i, a = .deliver i ∧ s.network[i]? = some m ∧ m.targetID = n := by
  cases a with
  | deliver i =>
    rw [input, Option.map_eq_some_iff] at h
    obtain ⟨m', hm', heq⟩ := h
    cases heq
    exact ⟨i, rfl, hm', rfl⟩
  | _ => cases h

lemma mem_of_input_receive {m : Message N K V} (h : s.input a = some (n, .receive m)) :
    m ∈ s.network ∧ m.targetID = n := by
  obtain ⟨i, -, hm, htarget⟩ := deliver_of_input_receive h
  exact ⟨List.mem_of_getElem? hm, htarget⟩

/-- Only a tick makes a node react to a tick. -/
lemma eq_of_input_tick {t : Tick} (h : s.input a = some (n, .tick t)) : a = .tick n t := by
  cases a with
  | tick =>
    simp only [input, Option.some.injEq, Prod.mk.injEq, Input.tick.injEq] at h
    rw [h.1, h.2]
  | _ => simp [input] at h

/-- Only a client call makes a node propose. -/
lemma eq_of_input_submit {op : ClientOp K V} {ts : ℤ} (h : s.input a = some (n, .submit op ts)) :
    a = .submit n op ts := by
  cases a with
  | submit =>
    simp only [input, Option.some.injEq, Prod.mk.injEq, Input.submit.injEq] at h
    rw [h.1, h.2.1, h.2.2]
  | _ => simp [input] at h

section input

variable {inp : Input N K V} (h : s.input a = some (n, inp))

include h

lemma step_of_input : s.step a =
    { nodes := Function.update s.nodes n (s.after n inp)
      network := s.remaining a ++ s.sent n inp
      calls := s.nextCalls a } := by
  rw [step, h]

/-- What holds of the acting node after its step, and held of the others before it, holds of
every node after the step. -/
@[elab_as_elim]
lemma forall_nodes_step {P : Fin N → RaftNode N K V → Prop} (hact : P n (s.after n inp))
    (hrest : ∀ v, v ≠ n → P v (s.nodes v)) (v : Fin N) : P v ((s.step a).nodes v) := by
  rw [step_of_input h]
  exact (Function.forall_update_iff s.nodes P).mpr ⟨hact, hrest⟩ v

/-- A message in flight after a step was in flight before it, or the acting node has sent it. -/
lemma mem_network_step {m : Message N K V} (hm : m ∈ (s.step a).network) :
    m ∈ s.network ∨ m ∈ s.sent n inp := by
  rw [step_of_input h] at hm
  exact (List.mem_append.mp hm).imp_left mem_of_mem_remaining

end input

end Cluster

end Replication.Raft
