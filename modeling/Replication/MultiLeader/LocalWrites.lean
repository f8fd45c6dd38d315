import Replication.MultiLeader.LastWriter
import Replication.MultiLeader.Manual
import Replication.Simulation.Sweep

/-!
# Multi leader · LocalWrites: nodes and their own operations

A node stamps a client operation by its hybrid clock and sets it in one section, whatever its store
holds.
-/

set_option linter.unusedSectionVars false

namespace Replication.MultiLeader

open Storage Conflict Node Clock Library Simulation Function

variable {I K σ : Type} [LinearOrder I] [DecidableEq K] [LinearOrder σ] [Inhabited σ]

/-- Clocks and stores of the nodes, as a pass sees them. -/
def ManualCluster.view : Replicas (ManualCluster I K σ) I K (Value σ) where
  hlc s n := (s.cluster.nodes n).hlc
  store s n := (s.cluster.nodes n).store
  set s n e :=
    let node := { s.cluster.nodes n with store := (s.cluster.nodes n).store.set e }
    { s with cluster := s.cluster.setNode n node }
  hlc_set s n e := by
    funext m
    show (Function.update s.cluster.nodes n _ m).hlc = _
    rw [Function.update_apply]
    split_ifs with hm
    · rw [hm]
    · rfl
  store_set s n e := by
    funext m
    show (Function.update s.cluster.nodes n _ m).store = _
    rw [Function.update_apply, Function.update_apply]
    split_ifs <;> rfl

/-- One step of a cluster with manual resolutions and interleaved passes. -/
def sweptStep (s : Swept (ManualCluster I K σ) I K (Value σ))
    (a : SweepAction (ManualAction I K σ) I K) : Swept (ManualCluster I K σ) I K (Value σ) :=
  s.step ManualCluster.view ManualCluster.step a

/-- Clocks that stamp are in range, and a pass in one go meets no version of a divergent key that is
stamped above the clock of a node it meets. -/
def ManualCluster.inRange (s : ManualCluster I K σ) : ManualAction I K σ → Bool
  | .base a => s.cluster.stampsInRange a
  | .take n _ _ t => (s.cluster.nodes n).hlc.inRange t
  | .store _ => true
  | .pass _ order ks => ∀ key ∈ ks, ∀ i ∈ order key, ∀ j ∈ order key,
      ∀ x ∈ s.cluster.stored j key, x.timestamp ≤ (s.cluster.nodes i).hlc.value

/-- Clocks that stamp are in range, and a pass copies to a node no stamp above its clock. -/
def keepsUp (s : Swept (ManualCluster I K σ) I K (Value σ))
    (a : SweepAction (ManualAction I K σ) I K) : Bool :=
  s.keepsUp ManualCluster.view ManualCluster.inRange a

/-- The node and the entry of a client operation that is accepted. -/
def Cluster.accepts (s : Cluster I K σ) : Action I K σ → Option (I × KVEntry I K (Value σ))
  | .write n key value t => ((s.nodes n).write key value t).2.map fun e => (n, e)
  | .delete n key t => ((s.nodes n).delete key t).2.map fun e => (n, e)
  | _ => none

/-- An accepted operation is stamped above what its node stores, and is stored. -/
def Outstamps (s : Swept (ManualCluster I K σ) I K (Value σ)) :
    SweepAction (ManualAction I K σ) I K → Prop
  | .base (.base a) => ∀ p ∈ s.cluster.cluster.accepts a,
      (∀ x ∈ s.cluster.cluster.stored p.1 p.2.key, x.timestamp < p.2.timestamp) ∧
        ((s.cluster.cluster.step a).nodes p.1).store.contents p.2.key = some p.2.content
  | _ => True

/-! ### Clocks stay ahead -/

section ahead

variable {s : Cluster I K σ} {a : Action I K σ}

/-- **A step keeps clocks ahead of stores**: what is stored was stamped by the clock, or is merged
into it first. -/
theorem ahead_step (hr : s.stampsInRange a = true)
    (h : ∀ n, Ahead (s.nodes n).hlc (s.nodes n).store) (m : I) :
    Ahead ((s.step a).nodes m).hlc ((s.step a).nodes m).store := by
  have hadv := advances_step (fun n => (h n).valid) hr
  have hold : ∀ m, Ahead ((s.step a).nodes m).hlc (s.nodes m).store := fun m =>
    (h m).advance (hadv m)
  have hput : ∀ {n : I} {e : KVEntry I K (Value σ)}, SetStep s (s.step a) n e →
      e.timestamp ≤ ((s.step a).nodes n).hlc.value →
      Ahead ((s.step a).nodes m).hlc ((s.step a).nodes m).store := by
    intro n e hset hle
    by_cases hm : m = n
    · subst hm
      rw [hset.self]
      exact (hold m).set hle
    · rw [hset.other m hm]
      exact h m
  cases step_storeStep s a with
  | frame hstored => exact (hold m).of_data (hstored m)
  | put n key value b t hact hhlc hset =>
    refine hput hset ?_
    rw [hhlc]
    exact (HLC.now_spec (h n).valid (Cluster.inRange_of_isPut hact hr)).2.1.le
  | take n remote t _ hhlc _ hset =>
    refine hput hset ?_
    rw [hhlc]
    exact (HLC.update_spec (h n).valid remote.timestamp).2.2.le
  | resolve n remote loc t _ hhlc hloc _ _ hset =>
    refine hput hset ?_
    rcases resolvedEntry_timestamp s n loc remote with htime | htime
    · rw [htime]
      exact (hold n).le remote.key loc hloc
    · rw [htime, hhlc]
      exact (HLC.update_spec (h n).valid remote.timestamp).2.2.le

end ahead

/-- An accepted operation is stored as its node has stamped it. -/
lemma accepts_eq_some {s : Cluster I K σ} {a : Action I K σ} {n : I}
    {e : KVEntry I K (Value σ)} (h : s.accepts a = some (n, e)) :
    ∃ key value b t, a.IsPut n key value b t ∧ e = s.putEntry n key value b t ∧
      ((s.step a).nodes n).store = (s.nodes n).store.set e := by
  have hput : ∀ {m key value b t}, a.IsPut m key value b t → s.accepts a =
      (if (s.nodes m).state.isPaused then none else some (m, s.putEntry m key value b t)) →
      ∃ key value b t, a.IsPut n key value b t ∧ e = s.putEntry n key value b t ∧
        ((s.step a).nodes n).store = (s.nodes n).store.set e := by
    intro m key value b t hact heq
    rw [heq] at h
    rw [Cluster.step_of_isPut hact]
    split_ifs at h ⊢
    cases h
    exact ⟨key, value, b, t, hact, rfl, congrArg (·.store) (Function.update_self n _ s.nodes)⟩
  cases a with
  | write =>
    refine hput (.inl ⟨rfl, rfl⟩) ?_
    dsimp only [Cluster.accepts, MultiLeaderNode.write]
    split_ifs <;> rfl
  | delete =>
    refine hput (.inr ⟨rfl, rfl, rfl⟩) ?_
    dsimp only [Cluster.accepts, MultiLeaderNode.delete]
    split_ifs <;> rfl
  | _ => cases h

/-- Clocks are ahead of stores, and of the resolutions that are about to be stored. -/
structure AheadInv (s : ManualCluster I K σ) : Prop where
  ahead : ManualCluster.view.Ahead s
  opened : ∀ r ∈ s.opened, r.resolved.timestamp ≤ (s.cluster.nodes r.node).hlc.value

/-- The clocks of a new cluster are ahead of empty stores. -/
lemma aheadInv_init (resolver : I → Resolver) :
    AheadInv (ManualCluster.init resolver : ManualCluster I K σ) :=
  ⟨fun _ => ahead_new, fun _ hr => by cases hr⟩

section manual

variable {s : ManualCluster I K σ}

section

variable (h : AheadInv s)

include h

/-- One node changes: its clock goes on, and its store stays or takes in a version that the clock is
not behind. -/
lemma AheadInv.setNode (n : I) {node : MultiLeaderNode I K (Value σ)}
    (hadv : HLC.Advances (s.cluster.nodes n).hlc node.hlc) (hnode : Ahead node.hlc node.store) :
    AheadInv { s with cluster := s.cluster.setNode n node } := by
  constructor
  · exact (forall_update_iff s.cluster.nodes fun _ x => Ahead x.hlc x.store).mpr
      ⟨hnode, fun m _ => h.ahead m⟩
  · exact fun r hr => Cluster.setNode_cases (P := fun x => r.resolved.timestamp ≤ x.hlc.value)
      (fun hm => (hm ▸ h.opened r hr).trans hadv.le) fun _ => h.opened r hr

/-- A pass may copy a version that the clock is not behind. -/
lemma AheadInv.set {i : I} {e : KVEntry I K (Value σ)}
    (he : e.timestamp ≤ (s.cluster.nodes i).hlc.value) : AheadInv (ManualCluster.view.set s i e) :=
  h.setNode i ⟨(h.ahead i).valid, le_rfl⟩ ((h.ahead i).set he)

/-- The first section of a resolution stamps it by the clock, -/
lemma AheadInv.take {n : I} {t : ℤ} (hr : (s.cluster.nodes n).hlc.inRange t = true) (key : K)
    (remote : Bool) : AheadInv (s.step (.take n key remote t)) := by
  cases hc : (s.cluster.nodes n).pending key with
  | none =>
    simp only [ManualCluster.step, hc]
    exact h
  | some =>
    simp only [ManualCluster.step, hc]
    obtain ⟨hv, heq, hlt⟩ := HLC.now_spec (h.ahead n).valid hr
    have hadv : HLC.Advances (s.cluster.nodes n).hlc ((s.cluster.nodes n).hlc.now t).1 :=
      ⟨hv, (heq ▸ hlt).le⟩
    have hset : AheadInv { s with
        cluster := s.cluster.setNode n ((s.cluster.nodes n).takeConflict key t) } :=
      h.setNode n hadv ((h.ahead n).advance hadv)
    refine ⟨hset.ahead, fun r hmem => ?_⟩
    rcases List.mem_append.mp hmem with hmem | hmem
    · exact hset.opened r hmem
    rw [List.mem_singleton.mp hmem]
    show ((s.cluster.nodes n).hlc.now t).2 ≤ ((s.cluster.setNode n _).nodes n).hlc.value
    rw [Cluster.setNode_self]
    exact heq.le

/-- and the second one stores it. -/
lemma AheadInv.store (i : ℕ) : AheadInv (s.step (.store i)) := by
  cases hi : s.opened[i]? with
  | none =>
    simp only [ManualCluster.step, hi]
    exact h
  | some r =>
    simp only [ManualCluster.step, hi]
    have hle := h.opened r (List.mem_of_getElem? hi)
    have hset : AheadInv { s with
        cluster := s.cluster.setNode r.node
          ((s.cluster.nodes r.node).storeResolved r.resolved r.remote) } :=
      h.setNode r.node ⟨(h.ahead r.node).valid, le_rfl⟩ ((h.ahead r.node).set hle)
    exact ⟨hset.ahead, fun r' hmem => hset.opened r' (List.mem_of_mem_eraseIdx hmem)⟩

/-- A pass in one go copies what the condition permits. -/
lemma AheadInv.pass {ids : List I} {order : K → List I} {ks : List K}
    (hr : s.inRange (.pass ids order ks) = true) : AheadInv (s.step (.pass ids order ks)) := by
  have hkey : KeyEq s.cluster.stores := fun i => (h.ahead i).key_eq
  refine ⟨fun m => ⟨(h.ahead m).valid, fun key x hx => ?_, ?_⟩, h.opened⟩
  · rcases runAntiEntropy_timestamp hkey hx with hx | ⟨hks, hm, j, hj, y, hy, hts⟩
    · exact (h.ahead m).le key x hx
    · rw [hts]
      exact of_decide_eq_true hr key hks m hm j hj y hy
  · exact (runAntiEntropy_data hkey (s.cluster.online ids) order ks).1 m

end

/-- **Every permitted step keeps clocks ahead.** -/
theorem aheadInv_step (s : ManualCluster I K σ) (a : ManualAction I K σ)
    (hr : s.inRange a = true) (h : AheadInv s) : AheadInv (s.step a) := by
  cases a with
  | base =>
    have hadv := advances_step (fun n => (h.ahead n).valid) hr
    refine ⟨ahead_step hr h.ahead, fun r hmem => ?_⟩
    exact (h.opened r hmem).trans (hadv r.node).le
  | take n key remote => exact h.take hr key remote
  | store i => exact h.store i
  | pass => exact h.pass hr

/-- **Accepted operations beat what is stored**, in every run that keeps up. -/
theorem outstamps_run (resolver : I → Resolver) {as : List (SweepAction (ManualAction I K σ) I K)}
    (h : Along sweptStep (fun s a => keepsUp s a = true) ⟨ManualCluster.init resolver, []⟩ as) :
    Along sweptStep Outstamps ⟨ManualCluster.init resolver, []⟩ as := by
  refine along_of_invariant (fun s => AheadInv s.cluster) (fun s a hup hs => ?_)
    (fun s a hup hs => ?_) h (aheadInv_init resolver)
  · exact Swept.keepsUp_step aheadInv_step (fun c i e he hc => hc.set he) s a hup hs
  · unfold Outstamps
    split
    case h_1 a _ =>
      rintro ⟨n, e⟩ hp
      obtain ⟨key, value, b, t, ha, rfl, hself⟩ := accepts_eq_some hp
      refine ⟨fun x hx => ?_, ?_⟩
      · exact (hs.ahead n).lt_now (Cluster.inRange_of_isPut ha hup) hx
      · rw [hself, contents_set, update_self]
    case h_2 => trivial

end manual

end Replication.MultiLeader
