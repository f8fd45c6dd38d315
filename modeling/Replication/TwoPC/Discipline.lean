import Replication.TwoPC.Locks

/-!
# TwoPC · Discipline: the locks of a participant that is called in any order

A participant by itself, without the coordinators that call it: every sequence of calls, with any
transaction ids and any writes.
-/

namespace Replication.TwoPC

open Library

variable {τ K V : Type}

/-- A call on a participant. -/
inductive Op (τ K V : Type) where
  | prepare (tx : τ) (writes : List (K × V))
  | commit (tx : τ)
  | abort (tx : τ)
  /-- The participant votes no from now on, or no longer. -/
  | setVoteNo (voteNo : Bool)
  /-- The participant goes down or up. -/
  | setDown (down : Bool)
  deriving DecidableEq, Repr

namespace Participant

/-- A new participant holds no locks. -/
lemma locksStaged_new : (Participant.new : Participant τ K V).LocksStaged := by
  intro k tx
  simp [Participant.new]

/-- Without staged writes there are no locks. -/
lemma LocksStaged.locked_eq_none {p : Participant τ K V} (h : p.LocksStaged)
    (hstaged : ∀ tx, p.staged tx = none) (k : K) : p.locked k = none := by
  cases hk : p.locked k with
  | none => rfl
  | some tx =>
    obtain ⟨ws, hws, -⟩ := (h k tx).mp hk
    simp [hstaged tx] at hws

variable [DecidableEq τ] [DecidableEq K]

/-- The participant after a call. -/
def apply (p : Participant τ K V) : Op τ K V → Participant τ K V
  | .prepare tx writes => (p.prepare tx writes).1
  | .commit tx => p.commit tx
  | .abort tx => p.abort tx
  | .setVoteNo voteNo => { p with voteNo := voteNo }
  | .setDown down => { p with down := down }

/-- A transaction that is prepared again has the keys of its staged writes among its new ones,
unless the participant is down, is set to vote no, or finds a new key locked by another
transaction. -/
def keepsKeys (p : Participant τ K V) : Op τ K V → Bool
  | .prepare tx writes =>
    p.down ∨ p.voteNo ∨ (writes.any fun w => (p.locked w.1).any fun owner => owner ≠ tx) ∨
      ∀ old ∈ p.staged tx, ∀ w ∈ old, ∃ w' ∈ writes, w'.1 = w.1
  | _ => true

/-- **A call keeps the locks those of the staged writes** exactly if it keeps the keys. -/
theorem locksStaged_apply_iff {p : Participant τ K V} (h : p.LocksStaged) (op : Op τ K V) :
    p.keepsKeys op = true ↔ (p.apply op).LocksStaged := by
  cases op with
  | prepare tx writes =>
    show decide _ = true ↔ (p.prepare tx writes).1.LocksStaged
    rw [decide_eq_true_eq]
    unfold prepare
    split_ifs with hdown hno hheld
    · exact iff_of_true (.inl hdown) h
    · exact iff_of_true (.inr (.inl hno)) h
    · exact iff_of_true (.inr (.inr (.inl hheld))) h
    · rw [or_iff_right hdown, or_iff_right hno, or_iff_right hheld]
      exact (h.prepare_iff (eq_of_not_held hheld)).symm
  | commit tx => exact iff_of_true rfl (h.commit tx)
  | abort tx => exact iff_of_true rfl (h.abort tx)
  | setVoteNo | setDown => exact iff_of_true rfl h

end Participant

/-- **Lock discipline.** After every call of a sequence the locks of a transaction are the keys of
its staged writes exactly if no transaction is prepared again without a key that it has staged; and
a participant with nothing staged then holds no lock. -/
theorem lock_discipline_iff [DecidableEq τ] [DecidableEq K] (ops : List (Op τ K V)) :
    (Along Participant.apply (fun p op => p.keepsKeys op = true) .new ops ↔
      ∀ ops', ops' <+: ops → ∀ k tx,
        (run Participant.apply .new ops').locked k = some tx ↔
          ∃ ws, (run Participant.apply .new ops').staged tx = some ws ∧ ∃ w ∈ ws, w.1 = k) ∧
    (Along Participant.apply (fun p op => p.keepsKeys op = true) .new ops →
      ∀ ops', ops' <+: ops → (∀ tx, (run Participant.apply .new ops').staged tx = none) →
        ∀ k, (run Participant.apply .new ops').locked k = none) := by
  have hexact := along_iff_forall_prefix Participant.LocksStaged Participant.LocksStaged
    (fun _ h => h) (fun _ op h => Participant.locksStaged_apply_iff h op)
    (fun _ op hop h => (Participant.locksStaged_apply_iff h op).mp hop)
    (Participant.locksStaged_new (τ := τ) (K := K) (V := V)) ops
  refine ⟨hexact, fun h ops' hops' hstaged k => ?_⟩
  exact (hexact.mp h ops' hops').locked_eq_none hstaged k

/-- A transaction is prepared again with one more key, and committed. -/
theorem lock_discipline_extended :
    ∀ k, (run Participant.apply .new
      ([.prepare true [(0, 5)], .prepare true [(0, 6), (1, 7)], .commit true] :
        List (Op Bool ℕ ℕ))).locked k = none := by
  exact (lock_discipline_iff _).2 (by decide) _ (List.prefix_refl _) (by decide)

/-- A transaction that is prepared again with fewer keys leaves a lock behind, which no commit
releases. -/
theorem lock_left_behind :
    (run Participant.apply .new
        ([.prepare 1 [(0, 5), (1, 6)], .prepare 1 [(0, 5)]] : List (Op ℕ ℕ ℕ))).locked 1 = some 1 ∧
      (run Participant.apply .new
        ([.prepare 1 [(0, 5), (1, 6)], .prepare 1 [(0, 5)]] : List (Op ℕ ℕ ℕ))).staged 1 =
          some [(0, 5)] ∧
      (run Participant.apply .new
        ([.prepare 1 [(0, 5), (1, 6)], .prepare 1 [(0, 5)], .commit 1] :
          List (Op ℕ ℕ ℕ))).locked 1 = some 1 := by
  decide

end Replication.TwoPC
