import Mathlib.Data.List.Basic
import Replication.Library.Serial

/-!
# TwoPC · Transaction: participants and coordinators

`internal/twopc/twopc.go`. A map of writes is the list of its entries, in the order in which the
code happens to visit them.

* `Transaction` — a call of `Execute`, and of `Recover` after a crash, as a sequence of calls to
  participants.
* `State.step` — transactions start, make their next call to a participant, crash after they have
  prepared and are recovered; participants change how they vote.

A coordinator runs one transaction at a time, so that any number of coordinators is a restriction on
which transactions are interleaved; here all of them may be.
-/

namespace Replication.TwoPC

open Library

variable {π τ K V : Type}

/-- The answer to a prepare request. -/
inductive Vote where
  | yes
  | no
  | error
  deriving DecidableEq, Repr

/-- An in-memory participant. Source: `twopc.go` `MemParticipant`. -/
structure Participant (τ K V : Type) where
  voteNo : Bool
  down : Bool
  committed : K → Option V
  /-- The staged writes of transactions. -/
  staged : τ → Option (List (K × V))
  locked : K → Option τ

namespace Participant

/-- Source: `twopc.go` `NewMemParticipant`. -/
def new : Participant τ K V := ⟨false, false, fun _ => none, fun _ => none, fun _ => none⟩

variable [DecidableEq τ] [DecidableEq K]

/-- Take the locks on the keys of the writes. -/
def lock (locked : K → Option τ) (tx : τ) (writes : List (K × V)) : K → Option τ :=
  writes.foldl (fun l w => Function.update l w.1 (some tx)) locked

/-- Drop the lock on a key if the transaction owns it. Source: `twopc.go` `releaseLocked`. -/
def releaseLocked (locked : K → Option τ) (k : K) (tx : τ) : K → Option τ :=
  if locked k = some tx then Function.update locked k none else locked

/-- Drop the locks on the keys of the writes. -/
def release (locked : K → Option τ) (tx : τ) (writes : List (K × V)) : K → Option τ :=
  writes.foldl (fun l w => releaseLocked l w.1 tx) locked

/-- Stage writes, lock their keys and vote. Source: `twopc.go` `Prepare`. -/
def prepare (p : Participant τ K V) (tx : τ) (writes : List (K × V)) : Participant τ K V × Vote :=
  if p.down then (p, .error)
  else if p.voteNo then (p, .no)
  else if writes.any fun w => (p.locked w.1).any fun owner => owner ≠ tx then (p, .no)
  else
    ({ p with
        staged := Function.update p.staged tx (some writes)
        locked := lock p.locked tx writes }, .yes)

/-- Apply the staged writes and release the locks. Source: `twopc.go` `Commit`. -/
def commit (p : Participant τ K V) (tx : τ) : Participant τ K V :=
  match p.staged tx with
  | none => p
  | some writes =>
    { p with
      committed := writeAll p.committed writes
      staged := Function.update p.staged tx none
      locked := release p.locked tx writes }

/-- Discard the staged writes and release the locks. Source: `twopc.go` `Abort`. -/
def abort (p : Participant τ K V) (tx : τ) : Participant τ K V :=
  match p.staged tx with
  | none => p
  | some writes =>
    { p with
      staged := Function.update p.staged tx none
      locked := release p.locked tx writes }

end Participant

/-- How far a transaction is. -/
inductive Stage (π K V : Type) where
  /-- Voting, with the participants still to be asked and their writes. -/
  | prepare (todo : List (π × List (K × V)))
  /-- The decision to commit, with the participants still to be told. -/
  | commit (todo : List π)
  /-- The decision to abort, with the participants still to be told. -/
  | abort (todo : List π)
  /-- The coordinator has crashed after the votes. -/
  | crashed
  /-- Every participant has been told the decision. -/
  | finished (committed : Bool)

/-- A transaction: the writes of every participant, and how far it is. Source: `twopc.go`
`Execute`. -/
structure Transaction (π K V : Type) where
  /-- The writes of every participant. -/
  perParticipant : List (π × List (K × V))
  stage : Stage π K V

/-- The participants of a transaction. -/
def Transaction.parts (t : Transaction π K V) : List π := t.perParticipant.map Prod.fst

/-- Participants and the transactions by their ids. -/
structure State (π τ K V : Type) where
  participants : π → Participant τ K V
  /-- The transactions that have been started. -/
  txs : τ → Option (Transaction π K V)

/-- What can happen next. -/
inductive Action (π τ K V : Type) where
  /-- A coordinator starts a transaction. -/
  | execute (tx : τ) (perParticipant : List (π × List (K × V)))
  /-- A transaction makes its next call, or crashes if that is due after the votes. -/
  | advance (tx : τ) (crashAfterPrepare : Bool)
  /-- A crashed transaction is recovered with a decision, at the participants in some order. -/
  | recover (tx : τ) (decision : Bool) (participants : List π)
  /-- A participant votes no from now on, or no longer. -/
  | setVoteNo (p : π) (voteNo : Bool)
  | setDown (p : π) (down : Bool)

namespace State

/-- Participants without data, and no transactions. -/
def new : State π τ K V := ⟨fun _ => .new, fun _ => none⟩

variable [DecidableEq π] [DecidableEq τ]

/-- Replace a participant. -/
def setParticipant (s : State π τ K V) (p : π) (q : Participant τ K V) : State π τ K V :=
  { s with participants := Function.update s.participants p q }

/-- A transaction goes on to a stage. -/
def setStage (s : State π τ K V) (tx : τ) (t : Transaction π K V) (stage : Stage π K V) :
    State π τ K V :=
  { s with txs := Function.update s.txs tx (some { t with stage := stage }) }

variable [DecidableEq K]

/-- The next call of a transaction. Source: `twopc.go` `Execute`, `decide`, `Recover`. -/
def advance (s : State π τ K V) (tx : τ) (t : Transaction π K V) (crashAfterPrepare : Bool) :
    State π τ K V :=
  match t.stage with
  | .prepare ((p, writes) :: rest) =>
    let r := (s.participants p).prepare tx writes
    (s.setParticipant p r.1).setStage tx t
      (if r.2 = .yes then .prepare rest else .abort t.parts)
  | .prepare [] => s.setStage tx t (if crashAfterPrepare then .crashed else .commit t.parts)
  | .commit (p :: rest) =>
    (s.setParticipant p ((s.participants p).commit tx)).setStage tx t (.commit rest)
  | .commit [] => s.setStage tx t (.finished true)
  | .abort (p :: rest) =>
    (s.setParticipant p ((s.participants p).abort tx)).setStage tx t (.abort rest)
  | .abort [] => s.setStage tx t (.finished false)
  | .crashed => s
  | .finished _ => s

/-- The state after an action. -/
def step (s : State π τ K V) : Action π τ K V → State π τ K V
  | .execute tx perParticipant =>
    { s with txs := Function.update s.txs tx (some ⟨perParticipant, .prepare perParticipant⟩) }
  | .advance tx crash =>
    match s.txs tx with
    | none => s
    | some t => s.advance tx t crash
  | .recover tx decision participants =>
    match s.txs tx with
    | some ⟨perParticipant, .crashed⟩ =>
      s.setStage tx ⟨perParticipant, .crashed⟩
        (if decision then .commit participants else .abort participants)
    | _ => s
  | .setVoteNo p voteNo => s.setParticipant p { s.participants p with voteNo := voteNo }
  | .setDown p down => s.setParticipant p { s.participants p with down := down }

/-- Transactions have ids of their own and name every participant once, and a crashed one is
recovered at its participants. -/
def admissible (s : State π τ K V) : Action π τ K V → Bool
  | .execute tx perParticipant =>
    (s.txs tx).isNone = true ∧ (perParticipant.map Prod.fst).Nodup
  | .recover tx _ participants => ∀ t ∈ s.txs tx, participants.Perm t.parts
  | _ => true

end State

end Replication.TwoPC
