import Replication.Checker.Linearizability
import Replication.Library.Run

/-!
# Client · History: what the orchestrator records

`internal/simulation/orchestrator.go` `Write`, `Delete` and `Read`, and `checkers.go`. The
orchestrator passes a call on to a node, reads the clock before and after, and records the call for
the linearizability checker if it was a write or a read and returned no error.

* `Backend` — the nodes as the orchestrator sees them: they act on their own, take calls, and a call
  returns at some time. Finding the node of a call, with its errors, is a part of taking it.
* `checkLinearizable` — the report.

Real time is the order of the steps. A reading of the clock, an `int64` of nanoseconds, may be any
number; that readings do not go back is the condition `Frontend.ClockForward`.
-/

namespace Replication.Client

open Checker

/-! ### Calls -/

/-- What a client asks for. -/
inductive Request where
  | write (key value : String)
  | delete (key : String)
  | read (key : String)
  deriving DecidableEq, Repr

/-- What a node returns: an error, or an entry, of which only the value matters. -/
inductive Outcome where
  | error
  | ok (value : String)
  deriving DecidableEq, Repr

/-- The nodes of a cluster: their states, what they do on their own, and where a call goes. -/
structure Backend (S A τ : Type) where
  act : S → A → S
  /-- A call is taken, under a number, or refused. -/
  call : S → τ → Request → S × Option ℕ
  outcome : S → ℕ → Option Outcome

/-- How far a call has come. -/
inductive Status where
  | running
  | failed
  /-- It has returned a value, in this step, at this reading of the clock. -/
  | succeeded (finishedAt : ℕ) (complete : ℤ) (value : String)
  deriving DecidableEq, Repr

/-- A call of a client. -/
structure Call where
  clientID : String
  request : Request
  handle : Option ℕ
  invokedAt : ℕ
  invoke : ℤ
  status : Status
  deriving DecidableEq, Repr

namespace Call

variable (c : Call)

/-- What is recorded about a call. Source: `orchestrator.go` `Write`, `Delete`, `Read`. -/
def recorded : Option Op :=
  match c.status, c.request with
  | .succeeded _ complete _, .write key value =>
    some ⟨c.clientID, .write, value, key, c.invoke, complete⟩
  | .succeeded _ complete value, .read key =>
    some ⟨c.clientID, .read, value, key, c.invoke, complete⟩
  | _, _ => none

/-- The call with the outcome that it returns. -/
def finish (time : ℕ) (complete : ℤ) : Outcome → Call
  | .error => { c with status := .failed }
  | .ok value => { c with status := .succeeded time complete value }

/-- Whether the call has returned without error. -/
def happened : Bool :=
  match c.status with
  | .succeeded _ _ _ => true
  | _ => false

end Call

/-! ### Clients and nodes -/

/-- The handlers of one cluster, over any backend. -/
structure Frontend (S : Type) where
  backend : S
  time : ℕ
  /-- The last reading of the clock. -/
  clock : ℤ
  /-- The calls, in the order in which they were made. -/
  calls : List Call
  /-- What is recorded. Source: `orchestrator.go` `Cluster`, its `history`. -/
  history : List Op

/-- The steps of clients and backend. -/
inductive Action (A τ : Type) where
  | act (a : A)
  /-- A client makes a call, when the clock shows `t`. -/
  | call (clientID : String) (target : τ) (request : Request) (t : ℤ)
  /-- The `i`-th call returns, when the clock shows `t`. -/
  | finish (i : ℕ) (t : ℤ)

namespace Frontend

variable {S A τ : Type} (B : Backend S A τ) (s : Frontend S)

/-- No call has been made. -/
def new (backend : S) : Frontend S := ⟨backend, 0, 0, [], []⟩

/-- The clock does not go back, from one reading to the next, and fits into an `int64`. Source:
`time.Now().UnixNano()`. -/
def ClockForward : Action A τ → Prop
  | .act _ => True
  | .call _ _ _ t => s.clock ≤ t ∧ t ≤ maxInt64
  | .finish _ t => s.clock ≤ t ∧ t ≤ maxInt64

instance : (a : Action A τ) → Decidable (s.ClockForward a)
  | .act _ => inferInstanceAs (Decidable True)
  | .call _ _ _ t => inferInstanceAs (Decidable (s.clock ≤ t ∧ t ≤ maxInt64))
  | .finish _ t => inferInstanceAs (Decidable (s.clock ≤ t ∧ t ≤ maxInt64))

/-- A client makes a call, and the clock is read. Source: `orchestrator.go` `Write`, `Delete`,
`Read`. -/
def makeCall (clientID : String) (target : τ) (request : Request) (t : ℤ) : Frontend S :=
  let r := B.call s.backend target request
  let status := if r.2 = none then Status.failed else .running
  { s with
    backend := r.1
    time := s.time + 1
    clock := t
    calls := s.calls ++ [⟨clientID, request, r.2, s.time, t, status⟩] }

/-- What a running call returns, once its backend has an outcome. -/
def result (c : Call) : Option Outcome :=
  if c.status = .running then c.handle.bind (B.outcome s.backend) else none

/-- A call returns, and is recorded. Source: `orchestrator.go` `Write`, `Delete`, `Read`. -/
def finishCall (i : ℕ) (t : ℤ) : Frontend S :=
  match s.calls[i]? with
  | none => s
  | some c =>
    match s.result B c with
    | none => s
    | some outcome =>
      let c' := c.finish s.time t outcome
      { s with
        time := s.time + 1
        clock := t
        calls := s.calls.set i c'
        history := s.history ++ c'.recorded.toList }

/-- One step of clients and backend. -/
def step : Action A τ → Frontend S
  | .act a => { s with backend := B.act s.backend a, time := s.time + 1 }
  | .call clientID target request t => s.makeCall B clientID target request t
  | .finish i t => s.finishCall B i t

end Frontend

/-! ### The report -/

/-- Source: `checkers.go` `ViolationOp`. -/
structure ViolationOp where
  clientID : String
  /-- "write" or "read". -/
  kind : String
  key : String
  value : String
  deriving DecidableEq, Repr

/-- Source: `checkers.go` `LinearizabilityReport`. -/
structure LinearizabilityReport where
  /-- The number of recorded operations. -/
  ops : ℕ
  linearizable : Bool
  /-- An operation that could not be linearized. -/
  violation : Option ViolationOp
  /-- Set if there is nothing to check. -/
  note : String
  deriving DecidableEq, Repr

/-- Source: `checkers.go` `kindName`. -/
def kindName (k : OpKind) : String := if k = .write then "write" else "read"

/-- Source: `checkers.go` `CheckLinearizable`. -/
def checkLinearizable (history : List Op) : LinearizabilityReport :=
  if history.length = 0 then ⟨0, true, none, "no operations recorded yet"⟩
  else
    let r := checkRegister history
    { ops := history.length
      linearizable := r.1
      violation := if r.1 = true then none else
        r.2.map fun bad => ⟨bad.clientID, kindName bad.kind, bad.key, bad.value⟩
      note := "" }

/-! ### The specification -/

namespace Call

variable (c : Call)

/-- The keys and values after a call that took effect. -/
def effect (store : String → Option String) : String → Option String :=
  match c.request with
  | .write key value => Function.update store key (some value)
  | .delete key => Function.update store key none
  | .read _ => store

/-- A read returns what the store holds. -/
def Legal (store : String → Option String) : Prop :=
  match c.status, c.request with
  | .succeeded _ _ value, .read key => store key = some value
  | _, _ => True

instance (store : String → Option String) : Decidable (c.Legal store) := by
  unfold Legal
  split <;> infer_instance

/-- A write or delete that has not returned, or has returned an error: it may take effect at any
time after its invocation. -/
def mayHappen : Bool :=
  match c.status, c.request with
  | .succeeded _ _ _, _ => false
  | _, .read _ => false
  | _, _ => true

/-- A call has returned before another one was made. -/
def Before (a b : Call) : Prop :=
  match a.status with
  | .succeeded finishedAt _ _ => finishedAt < b.invokedAt
  | _ => False

instance (a b : Call) : Decidable (a.Before b) := by
  unfold Before
  split <;> infer_instance

end Call

/-- Calls that take effect one after the other, from given keys and values. -/
def Serial : (String → Option String) → List Call → Prop
  | _, [] => True
  | store, c :: l => c.Legal store ∧ Serial (c.effect store) l

instance Serial.decidable :
    (store : String → Option String) → (l : List Call) → Decidable (Serial store l)
  | _, [] => inferInstanceAs (Decidable True)
  | store, c :: l =>
    have := Serial.decidable (c.effect store) l
    inferInstanceAs (Decidable (c.Legal store ∧ Serial (c.effect store) l))

/-- **The real history is linearizable**: the calls that returned no error, and some of the other
writes and deletes, can take effect one after the other in an order that follows real time. -/
def Frontend.RealLinearizable {S : Type} (s : Frontend S) : Prop :=
  ∃ effective : List Call, effective.Sublist (s.calls.filter Call.mayHappen) ∧
    ∃ l : List Call, l.Perm (s.calls.filter Call.happened ++ effective) ∧
      l.Pairwise (fun a b => ¬b.Before a) ∧ Serial (fun _ => none) l

end Replication.Client
