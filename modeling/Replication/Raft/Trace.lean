import Replication.Library.Ledger
import Replication.Raft.Handlers

/-!
# Raft · Trace: the cluster with its history

`Trace` is a cluster together with what has happened in it: the ledger of leaders, leader logs
and acknowledgements, the vote each node gave in each term, and the voters a candidate has
counted. `Trace.step` is `Cluster.step` with the records kept up; the records are never read, so
`run_cluster` turns every statement about traces into one about plain runs.
-/

set_option linter.unusedSectionVars false

namespace Replication.Raft

open Storage Log Node Library Function

variable {N : ℕ} {K V : Type} [DecidableEq K] [Inhabited V]

/-- A cluster and what has happened in it. -/
structure Trace (N : ℕ) (K V : Type) extends cluster : Cluster N K V where
  /-- Leaders, leader logs and acknowledgements by term. -/
  ledger : Ledger (Fin N) (Entry N K V)
  /-- The vote of each node in each term. -/
  voted : Fin N → ℕ → Option (Fin N)
  /-- The voters counted by each node in its current candidacy. -/
  counted : Fin N → Finset (Fin N)

namespace Trace

/-- A new cluster, without a history. -/
def init : Trace N K V where
  cluster := .init
  ledger := .empty
  voted _ _ := none
  counted _ := ∅

/-- The largest index acknowledged as matching in a list of messages. -/
def ackIndex : List (Message N K V) → ℕ
  | [] => 0
  | m :: out =>
    match m.body with
    | .appendAck true k => max k (ackIndex out)
    | _ => ackIndex out

/-- What a node acknowledges by a step: a leader its whole log. -/
def ackedBy (new : RaftNode N K V) (out : List (Message N K V)) : ℕ :=
  if new.role = .leader then new.fullLog.length else ackIndex out

/-- Record what a step of node `self` means for its term's leader log and acknowledgements. A
leader counts as having acknowledged its own log. -/
def recordLedger (L : Ledger (Fin N) (Entry N K V)) (self : Fin N) (old new : RaftNode N K V)
    (out : List (Message N K V)) : Ledger (Fin N) (Entry N K V) :=
  if new.role = .leader then
    (if old.role = .leader then L.grow new.currentTerm new.fullLog
      else L.elect new.currentTerm self new.fullLog).ack self new.currentTerm new.fullLog.length
  else L.ack self new.currentTerm (ackIndex out)

/-- Record the vote a node has in its current term. -/
def recordVoted (voted : Fin N → ℕ → Option (Fin N)) (self : Fin N) (new : RaftNode N K V) :
    Fin N → ℕ → Option (Fin N) :=
  fun v T => if v = self ∧ T = new.currentTerm then new.votedFor else voted v T

/-- Record the voters of a candidate: itself when it stands, then the sender of every vote it
counts. -/
def recordCounted (counted : Finset (Fin N)) (self : Fin N) (old : RaftNode N K V)
    (inp : Input N K V) (new : RaftNode N K V) : Finset (Fin N) :=
  if new.role = .candidate ∧ old.currentTerm < new.currentTerm then {self}
  else if old.votes < new.votes then
    match inp with
    | .receive m => insert m.senderID counted
    | _ => counted
  else counted

/-- One step of the cluster, with the records kept up. -/
def step (t : Trace N K V) (a : Action N K V) : Trace N K V :=
  match t.input a with
  | none => { t with cluster := t.cluster.step a }
  | some (n, inp) =>
    let old := t.nodes n
    let r := old.react n inp
    { cluster := t.cluster.step a
      ledger := recordLedger t.ledger n old r.1 r.2
      voted := recordVoted t.voted n r.1
      counted := Function.update t.counted n (recordCounted (t.counted n) n old inp r.1) }

@[simp] lemma step_cluster (t : Trace N K V) (a : Action N K V) :
    (t.step a).cluster = t.cluster.step a := by
  unfold step
  cases t.input a with
  | none | some => rfl

/-- The records change nothing: a run of traces is a run of the cluster. -/
lemma run_cluster (t : Trace N K V) (as : List (Action N K V)) :
    (run step t as).cluster = run Cluster.step t.cluster as :=
  run_map (π := Trace.cluster) step_cluster t as

lemma run_init_cluster (as : List (Action N K V)) :
    (run step init as).cluster = run Cluster.step Cluster.init as :=
  run_cluster init as

/-- A condition on a run of the cluster is one on the run of traces. -/
lemma along_cluster {P : Cluster N K V → Action N K V → Prop} {t : Trace N K V}
    {as : List (Action N K V)} (h : Along Cluster.step P t.cluster as) :
    Along step (fun t a => P t.cluster a) t as :=
  along_map (π := Trace.cluster) step_cluster h

/-! ### The components of a step -/

section step

variable {t : Trace N K V} {a : Action N K V}

lemma step_of_input_none (h : t.input a = none) :
    t.step a = { t with cluster :=
      { t.cluster with network := t.remaining a, calls := t.nextCalls a } } := by
  rw [step, h]
  dsimp only
  rw [Cluster.step_of_input_none h]

variable {n : Fin N} {inp : Input N K V} (h : t.input a = some (n, inp))
include h

lemma step_nodes_self : (t.step a).nodes n = t.after n inp := by
  rw [step_cluster, Cluster.step_of_input h]
  exact update_self ..

lemma step_nodes_of_ne {v : Fin N} (hv : v ≠ n) : (t.step a).nodes v = t.nodes v := by
  rw [step_cluster, Cluster.step_of_input h]
  exact update_of_ne hv ..

/-- A fact about nodes after a step: the acting node and the others. -/
@[elab_as_elim]
lemma forall_nodes_step {P : Fin N → RaftNode N K V → Prop} (hact : P n (t.after n inp))
    (hrest : ∀ v, v ≠ n → P v (t.nodes v)) (v : Fin N) : P v ((t.step a).nodes v) := by
  rw [step_cluster]
  exact Cluster.forall_nodes_step h hact hrest v

lemma step_network : (t.step a).network = t.remaining a ++ (t.sent n inp) := by
  rw [step_cluster, Cluster.step_of_input h]

lemma mem_network_step {m : Message N K V} (hm : m ∈ (t.step a).network) :
    m ∈ t.network ∨ m ∈ t.sent n inp := by
  rw [step_cluster] at hm
  exact Cluster.mem_network_step h hm

lemma step_ledger : (t.step a).ledger =
    recordLedger t.ledger n (t.nodes n) (t.after n inp) (t.sent n inp) := by
  rw [step, h]

lemma step_voted : (t.step a).voted = recordVoted t.voted n (t.after n inp) := by
  rw [step, h]

lemma step_counted_self : (t.step a).counted n =
    recordCounted (t.counted n) n (t.nodes n) inp (t.after n inp) := by
  rw [step, h]
  exact update_self ..

lemma step_counted_of_ne {v : Fin N} (hv : v ≠ n) : (t.step a).counted v = t.counted v := by
  rw [step, h]
  exact update_of_ne hv ..

end step

section counted

variable {counted : Finset (Fin N)} {self : Fin N} {old new : RaftNode N K V}

/-- Without a new term or a new vote the voters stay. -/
lemma recordCounted_keep {inp : Input N K V} (hterm : new.currentTerm = old.currentTerm)
    (hvotes : new.votes = old.votes) : recordCounted counted self old inp new = counted := by
  unfold recordCounted
  rw [if_neg (by omega), if_neg (by omega)]

/-- A node that stands has its own vote. -/
lemma recordCounted_stand {inp : Input N K V} (hterm : new.currentTerm = old.currentTerm + 1)
    (hrole : new.role = .candidate) : recordCounted counted self old inp new = {self} := by
  unfold recordCounted
  rw [if_pos ⟨hrole, by omega⟩]

/-- A vote that is counted adds its sender. -/
lemma recordCounted_count {m : Message N K V} (hterm : new.currentTerm = old.currentTerm)
    (hvotes : new.votes = old.votes + 1) :
    recordCounted counted self old (.receive m) new = insert m.senderID counted := by
  unfold recordCounted
  rw [if_neg (by omega), if_pos (by omega)]

end counted

section ledger

variable (L : Ledger (Fin N) (Entry N K V)) (self : Fin N) (old new : RaftNode N K V)
  (out : List (Message N K V))

/-- What a step records: a new leader, the log of a leader, and what the node acknowledges. -/
lemma recordLedger_spec :
    ((recordLedger L self old new out).elected =
      if new.role = .leader ∧ old.role ≠ .leader then update L.elected new.currentTerm (some self)
      else L.elected) ∧
    ((recordLedger L self old new out).tlog =
      if new.role = .leader then update L.tlog new.currentTerm new.fullLog else L.tlog) ∧
    ∀ v T, (recordLedger L self old new out).acked v T =
      if v = self ∧ T = new.currentTerm then max (L.acked self new.currentTerm) (ackedBy new out)
      else L.acked v T := by
  unfold recordLedger ackedBy
  by_cases hn : new.role = .leader
  · by_cases ho : old.role = .leader
    · simp [hn, ho, Ledger.ack, Ledger.grow]
    · simp [hn, ho, Ledger.ack, Ledger.elect]
  · simp [hn, Ledger.ack]

end ledger

end Trace

end Replication.Raft
