import Replication.Leaderless.Acks

/-!
# Leaderless · Levels: what the consistency levels ask for

`writeQuorumMet` counts acks: plainly, in the region of the coordinator, or in every region that has
a replica.

* `Settings`, `Cluster.configured` — clusters with any sizes, members, regions, levels and modes.
-/

set_option linter.unusedSectionVars false

namespace Replication.Leaderless

open Storage Node Clock Library List
open HashRing (Hashing)

variable {I K V : Type} [LinearOrder I] [DecidableEq K] [Inhabited V] [DecidableEq V] {Q : Finset I}
  {replicas total : List I}

/-! ### Settings -/

/-- The settings of a node in a configured cluster. -/
structure Settings (I : Type) where
  qConfig : QuorumConfig
  members : List I
  regions : I → String
  repairMode : ReadRepairMode
  /-- The quorum semantics of writes. -/
  consistencyLevel : ConsistencyLevel

/-- A new node with its settings. Source: `orchestrator.go` `createLeaderlessCluster`. -/
def LeaderlessNode.configured (H : Hashing I K) (n : I) (set : Settings I) (sloppy : Bool) :
    LeaderlessNode I K V :=
  { ((LeaderlessNode.new H n set.qConfig).setAllNodes H set.members).setRegions set.regions with
    repairMode := set.repairMode, consistencyLevel := set.consistencyLevel, sloppy := sloppy }

/-- A new cluster. The code gives all nodes the same settings, which does not matter here. -/
def Cluster.configured (H : Hashing I K) (set : I → Settings I) (sloppy : Bool) : Cluster I K V :=
  .init fun n => .configured H n (set n) sloppy

/-- Two nodes that both replicate every key, with a write quorum. -/
def twoReplicas (W : ℤ) : Settings Bool where
  qConfig := ⟨2, W, 1⟩
  members := [false, true]
  regions _ := ""
  repairMode := .async
  consistencyLevel := .quorum

lemma mem_calls_of_writeOf {s : Cluster I K V} {c : WriteCall I K V} {i : ℕ}
    (h : c ∈ s.writeOf i) : .write c ∈ s.calls :=
  mem_of_getElem? (calls_of_writeOf h)

/-- The settings of a node are the same after any run. -/
lemma config_run (H : Hashing I K) (s : Cluster I K V) (as : List (Action I K V)) (n : I) :
    ((run (Cluster.step H) s as).nodes n).config = (s.nodes n).config :=
  run_invariant' (fun s' : Cluster I K V => (s'.nodes n).config = (s.nodes n).config)
    (fun s' a h => ((move_step H s' a).nodeStep n).config.trans h) as rfl

/-! ### What a level promises -/

/-- More than half of the nodes of a region in `R` are in `Q`. -/
def MajorityIn (regions : I → String) (region : String) (Q R : Finset I) : Prop :=
  (R.filter fun r => regions r = region).card < 2 * (Q.filter fun r => regions r = region).card

/-- What the level of a node promises of a part `Q` of the replicas `R`. -/
structure LevelMet (n : LeaderlessNode I K V) (Q R : Finset I) : Prop where
  quorum : n.consistencyLevel = .quorum → n.qConfig.W ≤ Q.card
  /-- A majority in the node's own region, and at least one there. -/
  localQuorum : n.consistencyLevel = .localQuorum →
    MajorityIn n.regions n.selfRegion Q R ∧ ∃ r ∈ Q, n.regions r = n.selfRegion
  /-- A majority in every region with a replica. -/
  eachQuorum : n.consistencyLevel = .eachQuorum →
    ∀ r ∈ R, MajorityIn n.regions (n.regions r) Q R

section counts

variable {regions : I → String} {region : String}

/-- A region quorum is more than half of the region, and at least one. -/
lemma regionQuorum_spec (regions : I → String) (replicas : List I) (region : String) :
    1 ≤ regionQuorum regions replicas region ∧
      (replicas.filter fun r => regions r = region).length <
        2 * regionQuorum regions replicas region := by
  dsimp only [regionQuorum]
  split_ifs <;> omega

/-- Acks of a region are nodes of it. -/
lemma countInRegion_le (hnodup : total.Nodup) (hsub : ∀ r ∈ total, r ∈ Q) (regions : I → String)
    (region : String) :
    countInRegion regions total region ≤ (Q.filter fun r => regions r = region).card := by
  unfold countInRegion
  rw [← toFinset_card_of_nodup (hnodup.filter _)]
  refine Finset.card_le_card fun r hr => ?_
  obtain ⟨hmem, hregion⟩ := mem_filter.mp (mem_toFinset.mp hr)
  exact Finset.mem_filter.mpr ⟨hsub r hmem, of_decide_eq_true hregion⟩

/-- **A region quorum of acks is a majority** of the region. -/
theorem majorityIn_of_count (hnodup : total.Nodup) (hsub : ∀ r ∈ total, r ∈ Q)
    (h : regionQuorum regions replicas region ≤ countInRegion regions total region) :
    MajorityIn regions region Q replicas.toFinset := by
  have hcount := countInRegion_le hnodup hsub regions region
  obtain ⟨-, hhalf⟩ := regionQuorum_spec regions replicas region
  have hle : (replicas.toFinset.filter fun r => regions r = region).card ≤
      (replicas.filter fun r => regions r = region).length := by
    refine le_trans (Finset.card_le_card fun r hr => ?_) (toFinset_card_le _)
    obtain ⟨hmem, hregion⟩ := Finset.mem_filter.mp hr
    exact mem_toFinset.mpr (mem_filter.mpr ⟨mem_toFinset.mp hmem, decide_eq_true hregion⟩)
  unfold MajorityIn
  omega

end counts

/-- The regions of the replicas. -/
lemma mem_replicaRegions {regions : I → String} {region : String} :
    region ∈ replicaRegions regions replicas ↔ ∃ r ∈ replicas, regions r = region := by
  unfold replicaRegions
  rw [HashRing.mem_firsts, mem_map]

/-- **The quorum test delivers the level**, for every set that contains the nodes it counts. -/
theorem levelMet_of_writeQuorumMet {n : LeaderlessNode I K V} {acked : List I} {self : Bool}
    (h : n.writeQuorumMet acked replicas self = true) (hnodup : acked.Nodup)
    (hsub : ∀ r ∈ n.counted acked self, r ∈ Q) : LevelMet n Q replicas.toFinset := by
  have hcounted := nodup_counted n hnodup self
  rw [writeQuorumMet_eq] at h
  constructor
  · intro hlevel
    rw [hlevel] at h
    have hle : (n.counted acked self).length ≤ Q.card := by
      rw [← toFinset_card_of_nodup hcounted]
      exact Finset.card_le_card fun r hr => hsub r (mem_toFinset.mp hr)
    exact (of_decide_eq_true h).trans (Int.ofNat_le.mpr hle)
  · intro hlevel
    rw [hlevel] at h
    have hcount := of_decide_eq_true h
    refine ⟨majorityIn_of_count hcounted hsub hcount, ?_⟩
    have hone := (regionQuorum_spec n.regions replicas n.selfRegion).1
    have hpos : 0 < (Q.filter fun r => n.regions r = n.selfRegion).card :=
      lt_of_lt_of_le (hone.trans hcount) (countInRegion_le hcounted hsub _ _)
    obtain ⟨r, hr⟩ := Finset.card_pos.mp hpos
    exact ⟨r, (Finset.mem_filter.mp hr).1, (Finset.mem_filter.mp hr).2⟩
  · intro hlevel r hr
    rw [hlevel] at h
    refine majorityIn_of_count hcounted hsub (of_decide_eq_true (all_eq_true.mp h _ ?_))
    exact mem_replicaRegions.mpr ⟨r, mem_toFinset.mp hr, rfl⟩

/-! ### Levels that can be met -/

/-- Whether the acks of all replicas of a key meet the level of a node. -/
def LeaderlessNode.attainable (n : LeaderlessNode I K V) (H : Hashing I K) (key : K) : Bool :=
  match n.consistencyLevel with
  | .quorum => n.qConfig.W ≤ (n.replicasFor H key).length
  | .localQuorum => (n.replicasFor H key).any fun r => n.regions r = n.selfRegion
  | .eachQuorum => true

section attainable

variable {H : Hashing I K} {n : LeaderlessNode I K V} {key : K} {acked : List I} {self : Bool}

/-- A level that acks of replicas have met is attainable. -/
lemma attainable_of_met
    (h : n.writeQuorumMet acked (n.replicasFor H key) self = true) (hnodup : acked.Nodup)
    (hsub : ∀ r ∈ n.counted acked self, r ∈ n.replicasFor H key) : n.attainable H key = true := by
  have hlevel := levelMet_of_writeQuorumMet h hnodup (Q := (n.replicasFor H key).toFinset)
    fun r hr => mem_toFinset.mpr (hsub r hr)
  unfold LeaderlessNode.attainable
  cases hcl : n.consistencyLevel with
  | quorum =>
    have hle := toFinset_card_le (n.replicasFor H key)
    exact decide_eq_true ((hlevel.quorum hcl).trans (Int.ofNat_le.mpr hle))
  | localQuorum =>
    obtain ⟨r, hr, hregion⟩ := (hlevel.localQuorum hcl).2
    exact any_eq_true.mpr ⟨r, mem_toFinset.mp hr, decide_eq_true hregion⟩
  | eachQuorum => rfl

/-- All replicas of a region make its quorum. -/
lemma regionQuorum_le_countInRegion (hnodup : replicas.Nodup) (hsub : replicas ⊆ total)
    {regions : I → String} {region : String} (h : ∃ r ∈ replicas, regions r = region) :
    regionQuorum regions replicas region ≤ countInRegion regions total region := by
  obtain ⟨r, hr, hregion⟩ := h
  have hmem : r ∈ replicas.filter fun r => regions r = region :=
    mem_filter.mpr ⟨hr, decide_eq_true hregion⟩
  have hpos := length_pos_of_mem hmem
  have hle : (replicas.filter fun r => regions r = region).length ≤
      countInRegion regions total region := by
    refine ((hnodup.filter _).subperm fun x hx => ?_).length_le
    obtain ⟨hx, hxr⟩ := mem_filter.mp hx
    exact mem_filter.mpr ⟨hsub hx, hxr⟩
  dsimp only [regionQuorum]
  split_ifs <;> omega

/-- **An attainable level is met** when all replicas are counted. -/
theorem met_of_attainable (h : n.attainable H key = true) (hnodup : (n.replicasFor H key).Nodup)
    (hall : n.replicasFor H key ⊆ n.counted acked self) :
    n.writeQuorumMet acked (n.replicasFor H key) self = true := by
  unfold LeaderlessNode.attainable at h
  rw [writeQuorumMet_eq]
  cases hcl : n.consistencyLevel with
  | quorum =>
    rw [hcl] at h
    have hle := (hnodup.subperm hall).length_le
    exact decide_eq_true ((of_decide_eq_true h).trans (Int.ofNat_le.mpr hle))
  | localQuorum =>
    rw [hcl] at h
    obtain ⟨r, hr, hregion⟩ := any_eq_true.mp h
    exact decide_eq_true
      (regionQuorum_le_countInRegion hnodup hall ⟨r, hr, of_decide_eq_true hregion⟩)
  | eachQuorum =>
    refine all_eq_true.mpr fun region hregion => decide_eq_true ?_
    exact regionQuorum_le_countInRegion hnodup hall (mem_replicaRegions.mp hregion)

/-- Whether a level is attainable depends on the settings only. -/
lemma attainable_congr {n' : LeaderlessNode I K V} (h : n'.config = n.config) (key : K) :
    n'.attainable H key = n.attainable H key := by
  obtain ⟨-, hq, -, -, hregions, hself, -, hlevel, -⟩ := Config.mk.inj h
  unfold LeaderlessNode.attainable
  rw [replicasFor_congr h, hq, hlevel, hregions, hself]

end attainable

end Replication.Leaderless
