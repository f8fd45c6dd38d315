import Replication.Leaderless.Entries

/-!
# Leaderless · Handoff: what becomes of a hint

A hint leaves its buffer only when the ticker of its node sends it. The ticker forgets what it
sends, whether or not the message arrives.
-/

namespace Replication.Leaderless

open Storage Node Clock Library Function
open HashRing (Hashing)

variable {I K V : Type} [LinearOrder I] [DecidableEq K] [Inhabited V] [DecidableEq V]
  {H : Hashing I K} {s s' : Cluster I K V} {a : Action I K V}

/-- A hint is buffered somewhere, or its replica has the entry or a version that beats it. -/
def Kept (s : Cluster I K V) (t : I) (e : KVEntry I K V) : Prop :=
  (∃ m, (t, e) ∈ (s.nodes m).hints) ∨ Holds (s.nodes t).store e

/-! ### Only the ticker takes hints out -/

section stays

variable {n n' : LeaderlessNode I K V} {msgs : List (Message I K V)}

/-- A write only adds hints. -/
lemma WriteStep.hints_subset {c c' : WriteCall I K V} (h : WriteStep H c n n' c' msgs) :
    n.hints ⊆ n'.hints := by
  cases h with
  | apply =>
    rw [hints_applyWrite]
    exact List.Subset.refl _
  | wait n₁ acked stage result msgs _ hnode =>
    obtain ⟨chans, rfl⟩ := hnode.frame
    exact List.Subset.refl _
  | hints => exact List.subset_append_left _ _
  | _ => exact List.Subset.refl _

/-- A read takes no hints out. -/
lemma ReadStep.hints_subset {c c' : ReadCall I K V} {ev : Event I}
    (h : ReadStep H c n ev n' c' msgs) : n.hints ⊆ n'.hints := by
  cases h with
  | resp n₁ r _ hpop =>
    obtain ⟨ch, buf, -, -, rfl⟩ := popResp_eq_some hpop
    exact List.Subset.refl _
  | repair _ _ _ _ _ hn | repairSync _ _ _ _ _ hn =>
    obtain ⟨hlc, store, rfl⟩ := hn.frame
    exact List.Subset.refl _
  | ack n₁ r _ hpop =>
    obtain ⟨ch, buf, -, -, rfl⟩ := popAck_eq_some hpop
    exact List.Subset.refl _
  | _ => exact List.Subset.refl _

/-- A message takes no hints out. -/
lemma Handled.hints_subset {msg : Message I K V} (h : Handled n msg n' msgs) :
    n.hints ⊆ n'.hints := by
  cases h with
  | write => exact List.subset_append_left _ _
  | hintedHandoff | readRepair =>
    rw [hints_applyWrite]
    exact List.Subset.refl _
  | writeAck =>
    unfold LeaderlessNode.pushAck
    split <;> exact List.Subset.refl _
  | clientRead => exact List.Subset.refl _
  | syncAck =>
    unfold LeaderlessNode.pushResp
    split <;> exact List.Subset.refl _

end stays

/-- **Only the ticker takes hints out.** -/
theorem Move.hint_stays (h : Move H s a s') {n : I} {x : I × KVEntry I K V}
    (hx : x ∈ (s.nodes n).hints) : x ∈ (s'.nodes n).hints ∨ a = .deliverHints n := by
  have hupdate {m : I} {node : LeaderlessNode I K V} (hsub : (s.nodes m).hints ⊆ node.hints) :
      x ∈ (update s.nodes m node n).hints := by
    refine (forall_update_iff s.nodes fun n node => (s.nodes n).hints ⊆ node.hints).mpr
      ⟨hsub, fun _ _ => List.Subset.refl _⟩ n hx
  cases h with
  | adjust | invoke => exact .inl (hupdate (List.Subset.refl _))
  | write _ _ _ _ _ _ _ hmove | read _ _ _ _ _ _ _ _ hmove | deliver _ _ _ _ _ _ hmove =>
    exact .inl (hupdate hmove.hints_subset)
  | hints m ha =>
    by_cases hn : n = m
    · subst hn
      exact .inr ha
    left
    dsimp only
    rw [update_of_ne hn]
    exact hx
  | _ => exact .inl hx

/-! ### Keeping hints -/

/-- The ticker of a node runs only when each of its hints is buffered at another node too, or its
replica already has the entry or a version that beats it. -/
def Cluster.KeepsHints (s : Cluster I K V) (a : Action I K V) : Prop :=
  ∀ n, a = .deliverHints n → ∀ h ∈ (s.nodes n).hints,
    (∃ m, m ≠ n ∧ h ∈ (s.nodes m).hints) ∨ Holds (s.nodes h.1).store h.2

instance [Fintype I] (s : Cluster I K V) : (a : Action I K V) → Decidable (s.KeepsHints a)
  | .deliverHints n =>
    decidable_of_iff (∀ h ∈ (s.nodes n).hints,
      (∃ m, m ≠ n ∧ h ∈ (s.nodes m).hints) ∨ Holds (s.nodes h.1).store h.2) <| by
        refine ⟨fun hall m hm => ?_, fun hall => hall n rfl⟩
        cases hm
        exact hall
  | .write _ _ _ _ | .delete _ _ _ | .read _ _ | .advance _ _ | .deliver _ _ | .drop _ | .pause _
  | .resume _ | .setClockSkew _ _ => isTrue fun _ h => by cases h

/-- A hint is kept in a step that keeps hints. -/
lemma kept_move (h : Move H s a s') (hkeeps : s.KeepsHints a) {t : I} {e : KVEntry I K V}
    (hkept : Kept s t e) : Kept s' t e := by
  rcases hkept with ⟨m, hm⟩ | hholds
  · rcases h.hint_stays hm with hm' | hticker
    · exact .inl ⟨m, hm'⟩
    · rcases hkeeps m hticker (t, e) hm with ⟨m', hne, hm'⟩ | hholds
      · -- the other node does not send its hints in this step
        rcases h.hint_stays hm' with hm' | hticker'
        · exact .inl ⟨m', hm'⟩
        · rw [hticker'] at hticker
          cases hticker
          exact absurd rfl hne
      · exact .inr (holds_move h hholds)
  · exact .inr (holds_move h hholds)

/-- **Hinted handoff**: in a run in which the ticker of a node runs only when its hints are kept
without it, a buffered hint stays buffered somewhere until its replica has the entry or a version
that beats it. -/
theorem hint_kept (H : Hashing I K) (nodes : I → LeaderlessNode I K V) (as bs : List (Action I K V))
    (hkeeps : Along (Cluster.step H) Cluster.KeepsHints (Cluster.init nodes) (as ++ bs)) {n t : I}
    {e : KVEntry I K V}
    (hhint : (t, e) ∈ ((run (Cluster.step H) (Cluster.init nodes) as).nodes n).hints) :
    Kept (run (Cluster.step H) (Cluster.init nodes) (as ++ bs)) t e := by
  rw [run_append]
  rw [along_append] at hkeeps
  refine run_invariant (fun s => Kept s t e) (fun s a ha hs => ?_) hkeeps.2 (.inl ⟨n, hhint⟩)
  exact kept_move (move_step H s a) ha hs

/-- One of two nodes that replicate every key. -/
private def pair (n : Bool) : LeaderlessNode Bool Unit ℕ :=
  (LeaderlessNode.new alternatingTokens n ⟨2, 1, 1⟩).setAllNodes alternatingTokens [false, true]

/-- A write through `false` that `true` does not hear of, or does not acknowledge. -/
private def unackedWrite (loses : List (Action Bool Unit ℕ)) : List (Action Bool Unit ℕ) :=
  [.write false () 7 1000000, .advance 0 (.go 1000000 []), .advance 0 (.go 1000000 [])] ++ loses ++
    [.advance 0 (.go 2000000 []), .advance 0 .timeout, .advance 0 (.go 3000000 [])]

/-- The entry of the write. -/
private def seven : KVEntry Bool Unit ℕ where
  key := ()
  value := 7
  vclock := VectorClock.empty.increment false
  timestamp := 65536
  nodeID := false
  tombstone := false
  version := 0

/-- The ack is lost, so that the hint is sent to a node that has the entry. -/
theorem hint_kept_acked :
    Kept (run (Cluster.step alternatingTokens) (Cluster.init pair)
      (unackedWrite [Action.deliver 0 1000000, .drop 0] ++ [Action.deliverHints false, .drop 0]))
      true seven :=
  hint_kept alternatingTokens pair (unackedWrite [Action.deliver 0 1000000, .drop 0])
    [Action.deliverHints false, .drop 0] (n := false) (by decide +kernel) (by decide +kernel)

/-- The write is lost, the hint is buffered, and the message of the ticker is lost too: no node has
the hint any more, and its replica never gets the entry. -/
theorem hint_lost :
    (true, seven) ∈ ((run (Cluster.step alternatingTokens) (Cluster.init pair)
        (unackedWrite [Action.drop 0])).nodes false).hints ∧
      ¬ Kept (run (Cluster.step alternatingTokens) (Cluster.init pair)
        (unackedWrite [Action.drop 0] ++ [Action.deliverHints false, .drop 0])) true seven ∧
      (run (Cluster.step alternatingTokens) (Cluster.init pair)
        (unackedWrite [Action.drop 0] ++ [Action.deliverHints false, .drop 0])).network.length
          = 0 := by
  unfold Kept
  decide +kernel

end Replication.Leaderless
