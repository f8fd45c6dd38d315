import Mathlib.Data.List.Dedup
import Mathlib.Data.List.Sort
import Mathlib.Data.String.Basic

/-!
# Checker · Linearizability: the backtracking search

`internal/checker/linearizability.go`. The array of operations with its marks is the list of those
that are still to be placed, in the order of the array.

* `search` — place one operation after the other: any that could go next in real time, if the
  register has the value that it reads.
* `linearizeKey`, `checkRegister` — the search for one key, and for all keys in their order.

The search also keeps the last operation that could not be placed, which is what a failure reports.
-/

namespace Replication.Checker

/-- Source: `linearizability.go` `OpKind`. -/
inductive OpKind where
  | write
  | read
  /-- Any other number, which has no effect. -/
  | other
  deriving DecidableEq, Repr

/-- An operation on a register. Source: `linearizability.go` `Op`. -/
structure Op where
  clientID : String
  kind : OpKind
  /-- What is written, or what was read. -/
  value : String
  key : String
  invoke : ℤ
  complete : ℤ
  deriving DecidableEq, Repr

/-- The largest `int64`. -/
def maxInt64 : ℤ := 9223372036854775807

/-- The order of the search: by invocation, then by completion. -/
def Op.le (a b : Op) : Prop :=
  a.invoke < b.invoke ∨ a.invoke = b.invoke ∧ a.complete ≤ b.complete

instance : DecidableRel Op.le := fun _ _ => inferInstanceAs (Decidable (_ ∨ _))

/-- The earliest completion of the operations to be placed. -/
def minComplete (rest : List Op) : ℤ :=
  rest.foldl (fun m op => if op.complete < m then op.complete else m) maxInt64

/-- The register after an operation, or `none` if it reads another value. -/
def Op.apply (op : Op) (current : String) : Option String :=
  match op.kind with
  | .write => some op.value
  | .read => if op.value = current then some current else none
  | .other => some current

/-- Try to place an operation next; the search goes on with `next`. -/
def tryOp (next : String → List Op → Option Op → Bool × Option Op) (current : String)
    (rest : List Op) (i : ℕ) (op : Op) (blame : Option Op) : Bool × Option Op :=
  if minComplete rest < op.invoke then (false, blame)
  else
    match op.apply current with
    | none => (false, some op)
    | some value => next value (rest.eraseIdx i) blame

/-- The loop over the operations to be placed, from a position on: the first one that leads to
success ends it. -/
def tryFrom (attempt : ℕ → Op → Option Op → Bool × Option Op) :
    ℕ → List Op → Option Op → Bool × Option Op
  | _, [], blame => (false, blame)
  | i, op :: ops, blame =>
    if (attempt i op blame).1 = true then attempt i op blame
    else tryFrom attempt (i + 1) ops (attempt i op blame).2

/-- Place all operations, in at most `fuel` steps. Source: `linearizability.go` `linearizeKey`, the
closure `search`. -/
def search : ℕ → String → List Op → Option Op → Bool × Option Op
  | _, _, [], blame => (true, blame)
  | 0, _, _ :: _, blame => (false, blame)
  | fuel + 1, current, op :: ops, blame =>
    tryFrom (tryOp (search fuel) current (op :: ops)) 0 (op :: ops) blame

/-- One register. Source: `linearizability.go` `linearizeKey`. -/
def linearizeKey (sub : List Op) : Bool × Option Op :=
  let ops := sub.insertionSort Op.le
  let r := search ops.length "" ops none
  if r.1 = true then (true, none) else (false, r.2.or ops.head?)

/-- The registers of a list of keys, up to the first that fails. -/
def checkKeys (ops : List Op) : List String → Bool × Option Op
  | [] => (true, none)
  | key :: keys =>
    if (linearizeKey (ops.filter (·.key = key))).1 = true then checkKeys ops keys
    else (false, (linearizeKey (ops.filter (·.key = key))).2)

/-- The keys of a history, in order. -/
def sortedKeys (ops : List Op) : List String := (ops.map Op.key).dedup.insertionSort (· ≤ ·)

/-- All registers. Source: `linearizability.go` `CheckRegister`. -/
def checkRegister (ops : List Op) : Bool × Option Op := checkKeys ops (sortedKeys ops)

/-! ### The specification -/

/-- The value of the latest write to a key in a sequence of operations, or the empty string. -/
def lastValue (key : String) (l : List Op) : String :=
  l.foldl (fun v op => if op.kind = .write ∧ op.key = key then op.value else v) ""

/-- Every read returns the value of the latest write to its key before it. -/
def Legal (l : List Op) : Prop :=
  ∀ before op after, l = before ++ op :: after → op.kind = .read →
    op.value = lastValue op.key before

/-- There is a total order of the operations that follows real time and in which every read is
legal. -/
def Linearizable (ops : List Op) : Prop :=
  ∃ l : List Op, l.Perm ops ∧ l.Pairwise (fun a b => ¬b.complete < a.invoke) ∧ Legal l

end Replication.Checker
