import Mathlib.Data.Nat.Notation
import Mathlib.Logic.Function.Basic
import Replication.Library.Run

/-!
# Paxos · Propose: acceptors, proposers and their calls

`internal/paxos/paxos.go`. Values are `interface{}`: `none` is `nil`. Numbers are `uint64` and wrap
around.

* `Acceptor.prepare`, `Acceptor.accept` — the two requests.
* `Call.advance` — `Propose` as a sequence of sections, each with at most one request to an
  acceptor, so that the requests of different calls can be interleaved in any way and a proposer can
  stop anywhere.
* `State.step` — proposers are created, start to propose a value, and go on with a call.

The state keeps the positive answers of the acceptors, which is what the proposals that they have
accepted are read from.
-/

namespace Replication.Paxos

variable {I V : Type}

/-- Source: `paxos.go` `Acceptor`. -/
structure Acceptor (V : Type) where
  promisedN : ℕ
  /-- The number of the accepted value. -/
  acceptedN : ℕ
  acceptedV : Option V
  deriving DecidableEq, Repr

namespace Acceptor

/-- An acceptor that has not been asked anything. -/
def new : Acceptor V := ⟨0, 0, none⟩

/-- Promise not to accept lower numbers, if the number is above all promises, and report what has
been accepted. Source: `paxos.go` `Prepare`. -/
def prepare (a : Acceptor V) (n : ℕ) : Acceptor V × Bool × ℕ × Option V :=
  if a.promisedN < n then ({ a with promisedN := n }, true, a.acceptedN, a.acceptedV)
  else (a, false, a.acceptedN, a.acceptedV)

/-- Accept a proposal that breaks no promise. Source: `paxos.go` `Accept`. -/
def accept (a : Acceptor V) (n : ℕ) (v : Option V) : Acceptor V × Bool :=
  if a.promisedN ≤ n then ({ promisedN := n, acceptedN := n, acceptedV := v }, true)
  else (a, false)

end Acceptor

/-- Source: `paxos.go` `Proposer`. -/
structure Proposer where
  /-- The id, of which the lower 16 bits count. -/
  id : ℕ
  round : ℕ
  deriving DecidableEq, Repr

/-- Source: `paxos.go` `NewProposer`. -/
def Proposer.new (id : ℕ) : Proposer := ⟨id, 0⟩

/-- The next round, shifted above the bits of the id. Source: `paxos.go` `nextProposalNumber`. -/
def Proposer.nextProposalNumber (p : Proposer) : Proposer × ℕ :=
  ({ p with round := (p.round + 1) % UInt64.size },
    (p.round + 1) % UInt64.size * 65536 % UInt64.size + p.id % 65536)

/-- Source: `paxos.go` `majority`. -/
def majority (n : ℕ) : ℕ := n / 2 + 1

/-- How far a call of `Propose` is. -/
inductive Stage (I V : Type) where
  /-- Phase 1, with the acceptors still to be asked. -/
  | prepare (todo : List I)
  /-- Phase 2, with the acceptors still to be asked. -/
  | accept (todo : List I)
  /-- The call has returned, a value if it succeeded. -/
  | done (chosen : Option (Option V))
  deriving DecidableEq, Repr

/-- A call of `Propose` and its local variables. Source: `paxos.go` `Propose`. -/
structure Call (I V : Type) where
  v : Option V
  n : ℕ
  promises : ℕ
  chosenV : Option V
  /-- The number of the adopted proposal. -/
  highestAcceptedN : ℕ
  accepts : ℕ
  stage : Stage I V
  deriving DecidableEq, Repr

namespace Call

/-- A call that has its number. -/
def start (acceptors : List I) (v : Option V) (n : ℕ) : Call I V where
  v := v
  n := n
  promises := 0
  chosenV := v
  highestAcceptedN := 0
  accepts := 0
  stage := .prepare acceptors

/-- An answer to a prepare request: count a promise, and adopt the accepted value with the highest
number. -/
def prepared (c : Call I V) (rest : List I) (promised : Bool) (accN : ℕ) (accV : Option V) :
    Call I V :=
  if promised = false then { c with stage := .prepare rest }
  else if accV ≠ none ∧ c.highestAcceptedN < accN then
    { c with
      promises := c.promises + 1, chosenV := accV, highestAcceptedN := accN
      stage := .prepare rest }
  else { c with promises := c.promises + 1, stage := .prepare rest }

/-- The end of phase 1: a majority has promised, or the call fails. -/
def endPrepare (c : Call I V) (acceptors : List I) : Call I V :=
  if c.promises < majority acceptors.length then { c with stage := .done none }
  else { c with stage := .accept acceptors }

/-- An answer to an accept request. -/
def accepted (c : Call I V) (rest : List I) (ok : Bool) : Call I V :=
  { c with accepts := if ok then c.accepts + 1 else c.accepts, stage := .accept rest }

/-- The end of phase 2: a majority has accepted, or the call fails. -/
def endAccept (c : Call I V) (acceptors : List I) : Call I V :=
  if c.accepts < majority acceptors.length then { c with stage := .done none }
  else { c with stage := .done (some c.chosenV) }

end Call

/-- A positive answer of an acceptor. -/
inductive Answer (I V : Type) where
  /-- A promise to a call, with what had been accepted. -/
  | promise (a : I) (call n acceptedN : ℕ) (acceptedV : Option V)
  /-- The acceptance of the proposal of a call. -/
  | accept (a : I) (call n : ℕ) (v : Option V)
  deriving DecidableEq, Repr

/-- The answer is the acceptance of a proposal by an acceptor. -/
def Answer.isAccept [DecidableEq I] [DecidableEq V] (a : I) (n : ℕ) (v : Option V) :
    Answer I V → Bool
  | .accept b _ m w => b = a ∧ m = n ∧ w = v
  | .promise .. => false

/-- The acceptors of a decree, the proposers, their calls, and the positive answers so far. -/
structure State (I V : Type) where
  acceptors : I → Acceptor V
  proposers : List Proposer
  /-- The calls of `Propose`. -/
  calls : List (Call I V)
  history : List (Answer I V)

/-- What can happen next. -/
inductive Action (V : Type) where
  /-- A proposer is created, or restarted from round zero. -/
  | newProposer (id : ℕ)
  /-- A proposer starts to propose a value. -/
  | propose (p : ℕ) (v : Option V)
  /-- A call goes on to its next request. -/
  | advance (c : ℕ)
  deriving DecidableEq, Repr

namespace State

/-- Acceptors that have not been asked anything, and no proposers. -/
def new : State I V := ⟨fun _ => .new, [], [], []⟩

variable [DecidableEq I]

/-- A call asks an acceptor to prepare. -/
def prepare (s : State I V) (c : ℕ) (call : Call I V) (a : I) (rest : List I) : State I V :=
  let r := (s.acceptors a).prepare call.n
  { s with
    acceptors := Function.update s.acceptors a r.1
    calls := s.calls.set c (call.prepared rest r.2.1 r.2.2.1 r.2.2.2)
    history :=
      if r.2.1 then s.history ++ [.promise a c call.n r.2.2.1 r.2.2.2] else s.history }

/-- A call asks an acceptor to accept its proposal. -/
def accept (s : State I V) (c : ℕ) (call : Call I V) (a : I) (rest : List I) : State I V :=
  let r := (s.acceptors a).accept call.n call.chosenV
  { s with
    acceptors := Function.update s.acceptors a r.1
    calls := s.calls.set c (call.accepted rest r.2)
    history := if r.2 then s.history ++ [.accept a c call.n call.chosenV] else s.history }

/-- One section of a call, or a new call or proposer. -/
def step (acceptors : List I) (s : State I V) : Action V → State I V
  | .newProposer id => { s with proposers := s.proposers ++ [Proposer.new id] }
  | .propose p v =>
    match s.proposers[p]? with
    | none => s
    | some q =>
      -- without acceptors the call fails before it takes a number
      if acceptors = [] then s
      else
        { s with
          proposers := s.proposers.set p q.nextProposalNumber.1
          calls := s.calls ++ [Call.start acceptors v q.nextProposalNumber.2] }
  | .advance c =>
    match s.calls[c]? with
    | none => s
    | some call =>
      match call.stage with
      | .prepare (a :: rest) => s.prepare c call a rest
      | .prepare [] => { s with calls := s.calls.set c (call.endPrepare acceptors) }
      | .accept (a :: rest) => s.accept c call a rest
      | .accept [] => { s with calls := s.calls.set c (call.endAccept acceptors) }
      | .done _ => s

/-- Proposed values are not `nil`, and rounds stay below `2 ^ 48`. -/
def admissible (s : State I V) : Action V → Bool
  | .propose p v => v.isSome ∧ ∀ q ∈ s.proposers[p]?, q.round + 1 < 281474976710656
  | _ => true

/-- A proposal has been accepted by a majority, each at any time. -/
def AcceptedByMajority [DecidableEq V] (s : State I V) (acceptors : List I) (n : ℕ)
    (v : Option V) : Prop :=
  majority acceptors.length ≤ (acceptors.filter fun a => s.history.any (·.isAccept a n v)).length

instance [DecidableEq V] (acceptors : List I) (s : State I V) (n : ℕ) (v : Option V) :
    Decidable (s.AcceptedByMajority acceptors n v) :=
  inferInstanceAs (Decidable (_ ≤ _))

end State

end Replication.Paxos
