import Replication.MultiLeader.Cluster

/-!
# Multi leader · Clocks: what a vector clock counts

The component of a node in its own clock of a key numbers its operations on the key, so a clock
counts operations, and a version can be read as a summary of the operations its clock counts.
-/

set_option linter.unusedSectionVars false

namespace Replication.MultiLeader

open Storage Conflict Node Clock Library Function List

variable {I K σ : Type} [LinearOrder I] [DecidableEq K] [LinearOrder σ] [Inhabited σ]
  {e : KVEntry I K (Value σ)} {key : K} {n : I}

/-! ### Clocks -/

/-- The component of a node in its own clock of a key numbers its operations, and no clock is ahead
of it. -/
structure ClockInv (s : Cluster I K σ) : Prop where
  ids : ∀ n, (s.nodes n).id = n
  key_eq : ∀ n key e, s.stored n key = some e → e.key = key
  positive : ∀ e, s.Has e → e.vclock.Positive
  /-- No clock is ahead of the owner of a component. -/
  bounded : ∀ e, s.Has e → ∀ i, e.vclock.count i ≤ s.own i e.key
  numbered : ∀ w ∈ s.writes, 0 < opNumber w ∧ opNumber w ≤ s.own w.nodeID w.key
  /-- The numbers of a node's operations on a key differ. -/
  unique : ∀ w ∈ s.writes, ∀ w' ∈ s.writes, w.key = w'.key → w.nodeID = w'.nodeID →
    opNumber w = opNumber w' → w = w'

/-- A new cluster has no versions. -/
lemma clockInv_init (resolver : I → Resolver) :
    ClockInv (Cluster.init resolver : Cluster I K σ) := by
  have hnone : ∀ e, ¬ (Cluster.init resolver : Cluster I K σ).Has e := by
    rintro e (he | ⟨n, key, he⟩)
    · cases he
    · cases he
  exact ⟨fun _ => rfl, fun n key e he => absurd (.inr ⟨n, key, he⟩) (hnone e),
    fun e he => absurd he (hnone e), fun e he => absurd he (hnone e), nofun, nofun⟩

section clocks

variable {s s' : Cluster I K σ}

section

variable (hid : ∀ n, (s.nodes n).id = n) (n : I) (key : K) (value : Value σ) (tombstone : Bool)
  (t : ℤ)

include hid

/-- A local operation counts one more at its own node. -/
lemma putEntry_count : (s.putEntry n key value tombstone t).vclock.count =
      update (s.clockOf n key) n (s.own n key + 1) := by
  have hbase : ((s.nodes n).store.getRaw key).elim (VectorClock.empty : VectorClock I)
      KVEntry.vclock = ((s.nodes n).store.data key).elim .empty KVEntry.vclock := rfl
  show (((s.nodes n).store.getRaw key).elim VectorClock.empty KVEntry.vclock |>.increment
    (s.nodes n).id).count = _
  rw [VectorClock.count_increment, hid, hbase]
  unfold Cluster.own Cluster.clockOf MultiLeaderNode.clockOf
  cases (s.nodes n).store.data key <;> rfl

/-- It carries the id of its node, -/
lemma putEntry_nodeID : (s.putEntry n key value tombstone t).nodeID = n := hid n

/-- has the next number, -/
lemma opNumber_putEntry : opNumber (s.putEntry n key value tombstone t) = s.own n key + 1 := by
  rw [opNumber, putEntry_nodeID hid, putEntry_count hid, update_self]

/-- and is not behind what the node has stored. -/
lemma clockOf_le_putEntry :
    s.clockOf n key ≤ (s.putEntry n key value tombstone t).vclock.count := by
  rw [putEntry_count hid]
  intro i
  by_cases hi : i = n
  · subst hi
    rw [update_self]
    exact Nat.le_succ _
  · rw [update_of_ne hi]

end

section

variable (h : ClockInv s)

include h

/-- No stored clock is ahead of an owner. -/
lemma ClockInv.clockOf_le_own (n : I) (key : K) (i : I) : s.clockOf n key i ≤ s.own i key := by
  cases hs : s.stored n key with
  | none =>
    rw [Cluster.clockOf_of_none hs]
    exact Nat.zero_le _
  | some e =>
    rw [Cluster.clockOf_eq hs, ← h.key_eq n key e hs]
    exact h.bounded e (.inr ⟨n, key, hs⟩) i

/-- The clock of a local operation has no zero components. -/
lemma ClockInv.positive_putEntry (n : I) (key : K) (value : Value σ) (tombstone : Bool) (t : ℤ) :
    (s.putEntry n key value tombstone t).vclock.Positive := by
  refine VectorClock.Positive.increment ?_ _
  cases hs : (s.nodes n).store.getRaw key with
  | none => exact VectorClock.positive_empty
  | some e => exact h.positive e (.inr ⟨n, key, hs⟩)

/-- An operation with the next number has a number of its own. -/
lemma ClockInv.unique_concat (hnum : opNumber e = s.own e.nodeID e.key + 1) :
    ∀ w ∈ s.writes ++ [e],
    ∀ w' ∈ s.writes ++ [e], w.key = w'.key → w.nodeID = w'.nodeID → opNumber w = opNumber w' →
      w = w' := by
  have hfresh : ∀ w ∈ s.writes, w.key = e.key → w.nodeID = e.nodeID → opNumber w ≠ opNumber e := by
    intro w hw hkey hnode heq
    have := (h.numbered w hw).2
    rw [hkey, hnode] at this
    omega
  intro w hw w' hw' hkey hnode hop
  rcases mem_append.mp hw with hold | hnew <;> rcases mem_append.mp hw' with hold' | hnew'
  · exact h.unique w hold w' hold' hkey hnode hop
  · rw [mem_singleton.mp hnew'] at hkey hnode hop
    exact absurd hop (hfresh w hold hkey hnode)
  · rw [mem_singleton.mp hnew] at hkey hnode hop
    exact absurd hop.symm (hfresh w' hold' hkey.symm hnode.symm)
  · rw [mem_singleton.mp hnew, mem_singleton.mp hnew']

/-- Storing a version that is bounded by the owners and keeps the clock of its key. -/
lemma ClockInv.set (hset : SetStep s s' n e) (hid : (s'.nodes n).id = n)
    (hle : s.clockOf n e.key ≤ e.vclock.count) (hpos : e.vclock.Positive)
    (hbound : ∀ i, i ≠ n → e.vclock.count i ≤ s.own i e.key) (hwrites : s'.writes = s.writes ∨
      s'.writes = s.writes ++ [e] ∧ opNumber e = s.own e.nodeID e.key + 1 ∧ e.nodeID = n) :
    ClockInv s' := by
  have hown : ∀ i key, s.own i key ≤ s'.own i key := fun i key => hset.clockOf_le hle i key i
  have hnew : ∀ i, e.vclock.count i ≤ s'.own i e.key := by
    intro i
    by_cases hi : i = n
    · subst hi
      unfold Cluster.own
      rw [hset.clockOf_self]
    · exact (hbound i hi).trans (hown i e.key)
  constructor
  · intro m
    by_cases hm : m = n
    · rw [hm, hid]
    · rw [hset.other m hm, h.ids]
  · intro m key x hx
    rcases hset.of_stored hx with hx | ⟨rfl, v, rfl⟩
    · exact h.key_eq m key x hx
    · rfl
  · intro x hx
    rcases hset.of_has hx with hx | ⟨v, rfl⟩
    · exact h.positive x hx
    · exact hpos
  · intro x hx i
    rcases hset.of_has hx with hx | ⟨v, rfl⟩
    · exact (h.bounded x hx i).trans (hown i x.key)
    · exact hnew i
  · intro w hw
    rcases hwrites with heq | ⟨heq, hnum, hn⟩
    · rw [heq] at hw
      exact (h.numbered w hw).imp_right fun hle => hle.trans (hown _ _)
    rw [heq] at hw
    rcases mem_append.mp hw with hw | hw
    · exact (h.numbered w hw).imp_right fun hle => hle.trans (hown _ _)
    rw [mem_singleton.mp hw]
    refine ⟨?_, hnew e.nodeID⟩
    rw [hnum]
    exact Nat.succ_pos _
  · rcases hwrites with heq | ⟨heq, hnum, -⟩
    · rw [heq]
      exact h.unique
    · rw [heq]
      exact h.unique_concat hnum

end

/-- Ids and resolvers stay. -/
lemma step_frame (s : Cluster I K σ) (a : Action I K σ) (n : I) :
    ((s.step a).nodes n).id = (s.nodes n).id ∧
      ((s.step a).nodes n).resolver = (s.nodes n).resolver := by
  have hset : ∀ (m : I) (node : MultiLeaderNode I K (Value σ)), node.id = (s.nodes m).id →
      node.resolver = (s.nodes m).resolver → ((s.setNode m node).nodes n).id = (s.nodes n).id ∧
        ((s.setNode m node).nodes n).resolver = (s.nodes n).resolver := fun m node hid hres =>
    Cluster.setNode_cases
      (P := fun x => x.id = (s.nodes n).id ∧ x.resolver = (s.nodes n).resolver)
      (fun hn => hn ▸ ⟨hid, hres⟩) fun _ => ⟨rfl, rfl⟩
  have h := step_outcome s a
  generalize s.step a = s' at h ⊢
  cases h with
  | idle | send => exact ⟨rfl, rfl⟩
  | put m key value b t => exact hset m ((s.nodes m).put key value b t).1 rfl rfl
  | receive m i t _ remote =>
    obtain ⟨hid, -, hres, -⟩ := (s.nodes m).receiveRemoteWrite_frame remote t
    exact hset m _ hid hres
  | switch m | skew m => exact hset m _ rfl rfl

/-- The winner of a conflict has the join of both clocks, -/
lemma resolvedEntry_vclock (s : Cluster I K σ) (n : I) (loc remote : KVEntry I K (Value σ)) :
    (s.resolvedEntry n loc remote).vclock.count = loc.vclock.count ⊔ remote.vclock.count :=
  (s.nodes n).resolvedEntry_count ⟨remote.key, loc, remote, (s.nodes n).id⟩

/-- the stamp of one of the versions, -/
lemma resolvedEntry_timestamp (s : Cluster I K σ) (n : I) (loc remote : KVEntry I K (Value σ)) :
    (s.resolvedEntry n loc remote).timestamp = loc.timestamp ∨
      (s.resolvedEntry n loc remote).timestamp = remote.timestamp :=
  Resolver.winner_timestamp _ _

/-- and their key; -/
lemma ClockInv.resolvedEntry_key (h : ClockInv s) {remote loc : KVEntry I K (Value σ)}
    (hloc : s.stored n remote.key = some loc) : (s.resolvedEntry n loc remote).key = remote.key :=
  Resolver.winner_key _ _ (h.key_eq n remote.key loc hloc)

/-- it is not behind what the node has stored. -/
lemma ClockInv.clockOf_le_resolved (h : ClockInv s) {remote loc : KVEntry I K (Value σ)}
    (hloc : s.stored n remote.key = some loc) :
    s.clockOf n (s.resolvedEntry n loc remote).key ≤
      (s.resolvedEntry n loc remote).vclock.count := by
  rw [h.resolvedEntry_key hloc, resolvedEntry_vclock, Cluster.clockOf_eq hloc]
  exact le_sup_left

/-- **Every step keeps the numbering of operations.** -/
theorem clockInv_step (h : ClockInv s) (a : Action I K σ) : ClockInv (s.step a) := by
  have hids := fun n => (step_frame s a n).1.trans (h.ids n)
  cases step_storeStep s a with
  | frame hstored hhas hwrites =>
    have hown : ∀ i key, (s.step a).own i key = s.own i key := fun i key =>
      congrFun (Cluster.clockOf_congr (hstored i key)) i
    refine ⟨hids, fun m key x hx => h.key_eq m key x (hstored m key ▸ hx),
      fun x hx => h.positive x (hhas x hx), fun x hx i => ?_, fun w hw => ?_, ?_⟩
    · rw [hown]
      exact h.bounded x (hhas x hx) i
    · rw [hown]
      exact h.numbered w (hwrites ▸ hw)
    · rw [hwrites]
      exact h.unique
  | put n key value b t _ _ hset hwrites =>
    refine h.set hset (hids n) (clockOf_le_putEntry h.ids n key value b t)
      (h.positive_putEntry n key value b t) (fun i hi => ?_) (.inr ⟨hwrites, ?_, ?_⟩)
    · rw [putEntry_count h.ids n key value b t, update_of_ne hi]
      exact h.clockOf_le_own n key i
    · rw [opNumber_putEntry h.ids, putEntry_nodeID h.ids]
      rfl
    · exact putEntry_nodeID h.ids n key value b t
  | take n remote t hmem _ hle hset hwrites =>
    exact h.set hset (hids n) hle (h.positive remote (.inl hmem))
      (fun i _ => h.bounded remote (.inl hmem) i) (.inl hwrites)
  | resolve n remote loc t hmem _ hloc h₁ h₂ hset hwrites =>
    have hhas : s.Has loc := .inr ⟨n, remote.key, hloc⟩
    refine h.set hset (hids n) (h.clockOf_le_resolved hloc)
      (((h.positive loc hhas).merge _).merge _) (fun i _ => ?_) (.inl hwrites)
    rw [h.resolvedEntry_key hloc, resolvedEntry_vclock]
    refine sup_le ?_ (h.bounded remote (.inl hmem) i)
    rw [← h.key_eq n remote.key loc hloc]
    exact h.bounded loc hhas i

/-- **Stored clocks never decrease** in a step. -/
theorem clockOf_le_step (h : ClockInv s) (a : Action I K σ) (m : I) (k : K) :
    s.clockOf m k ≤ (s.step a).clockOf m k := by
  cases step_storeStep s a with
  | frame hstored => rw [Cluster.clockOf_congr (hstored m k)]
  | put n key value b t _ _ hset =>
    exact hset.clockOf_le (clockOf_le_putEntry h.ids n key value b t) m k
  | take _ _ _ _ _ hle hset => exact hset.clockOf_le hle m k
  | resolve _ _ _ _ _ _ hloc _ _ hset => exact hset.clockOf_le (h.clockOf_le_resolved hloc) m k

/-! ### What a version stands for -/

/-- Every version stands, in the sense of `Rep`, for the operations its clock counts. -/
def Summarizes (Rep : KVEntry I K (Value σ) → (KVEntry I K (Value σ) → Prop) → Prop)
    (s : Cluster I K σ) : Prop :=
  ∀ e, s.Has e → Rep e (s.Counts e.key e.vclock.count)

/-- The recorded operations tell what a clock counts. -/
lemma Cluster.counts_congr (h : s'.writes = s.writes) (key : K) (vc : I → ℕ) :
    s'.Counts key vc = s.Counts key vc := by
  unfold Cluster.Counts
  rw [h]

/-- The join of two clocks counts what one of them counts. -/
lemma Cluster.counts_sup (s : Cluster I K σ) (key : K) (a b : I → ℕ) :
    s.Counts key (a ⊔ b) = fun w => s.Counts key a w ∨ s.Counts key b w :=
  funext fun _ => propext counted_sup

/-- A stored version stands for what the stored clock counts. -/
lemma Summarizes.stored {Rep : KVEntry I K (Value σ) → (KVEntry I K (Value σ) → Prop) → Prop}
    (hsum : Summarizes Rep s) (h : ClockInv s) (he : s.stored n key = some e) :
    Rep e (s.Counts key (s.clockOf n key)) := by
  have hrep := hsum e (.inr ⟨n, key, he⟩)
  rw [h.key_eq n key e he, ← Cluster.clockOf_eq he] at hrep
  exact hrep

/-- The zero clock counts nothing. -/
lemma ClockInv.not_counts_zero (h : ClockInv s) (key : K) (w : KVEntry I K (Value σ)) :
    ¬ s.Counts key 0 w := by
  rintro ⟨⟨hw, -⟩, hle⟩
  have hpos := (h.numbered w hw).1
  exact absurd hle (not_le.mpr hpos)

/-- A new operation is added to those of its key. -/
lemma Cluster.setOf_writes {w : KVEntry I K (Value σ)} (h : s'.writes = s.writes ++ [w]) :
    {x | x ∈ s'.writes ∧ x.key = w.key} = insert w {x | x ∈ s.writes ∧ x.key = w.key} := by
  ext x
  rw [Set.mem_insert_iff, Set.mem_ofPred_eq, Set.mem_ofPred_eq, h, mem_append, mem_singleton]
  constructor
  · rintro ⟨hx | hx, hkey⟩
    · exact .inr ⟨hx, hkey⟩
    · exact .inl hx
  · rintro (rfl | ⟨hx, hkey⟩)
    · exact ⟨.inr rfl, rfl⟩
    · exact ⟨.inl hx, hkey⟩

/-- Clocks that are behind a new operation count what they did. -/
lemma Cluster.counts_of_lt {w : KVEntry I K (Value σ)} (h : s'.writes = s.writes ++ [w])
    {vc : I → ℕ} (hlt : key = w.key → vc w.nodeID < opNumber w) :
    s'.Counts key vc = s.Counts key vc := by
  by_cases hkey : key = w.key
  · subst hkey
    unfold Cluster.Counts
    rw [Cluster.setOf_writes h]
    exact funext fun x => propext (counted_insert_of_lt (hlt rfl))
  · have hset : {x | x ∈ s'.writes ∧ x.key = key} = {x | x ∈ s.writes ∧ x.key = key} := by
      ext x
      rw [Set.mem_ofPred_eq, Set.mem_ofPred_eq, h, mem_append, mem_singleton]
      constructor
      · rintro ⟨hx | rfl, hk⟩
        · exact ⟨hx, hk⟩
        · exact absurd hk.symm hkey
      · exact fun hx => ⟨.inl hx.1, hx.2⟩
    unfold Cluster.Counts
    rw [hset]

/-- Its own clock counts it and what its node has stored. -/
lemma ClockInv.counts_putEntry (h : ClockInv s) {value : Value σ} {b : Bool} {t : ℤ}
    (hwrites : s'.writes = s.writes ++ [s.putEntry n key value b t]) :
    s'.Counts key (s.putEntry n key value b t).vclock.count =
      fun w => w = s.putEntry n key value b t ∨ s.Counts key (s.clockOf n key) w := by
  have hnode := putEntry_nodeID h.ids n key value b t
  have hset := Cluster.setOf_writes hwrites
  have hkey : (s.putEntry n key value b t).key = key := rfl
  rw [hkey] at hset
  unfold Cluster.Counts
  rw [hset, putEntry_count h.ids]
  refine funext fun w => propext ?_
  have hnext := counted_insert_next KVEntry.nodeID opNumber
    (H := {x | x ∈ s.writes ∧ x.key = key}) (c := s.clockOf n key)
    (w := s.putEntry n key value b t) (e := w)
  rw [hnode] at hnext
  refine hnext ?_ fun x hx ho => ?_
  · exact opNumber_putEntry h.ids n key value b t
  · have hle := (h.numbered x hx.1).2
    rw [hx.2, ho] at hle
    exact hle

variable {Rep : KVEntry I K (Value σ) → (KVEntry I K (Value σ) → Prop) → Prop}

/-- **One step keeps what versions stand for**, when a local operation stands for itself and what
was there before it, and a resolution for what both versions stand for. -/
theorem summarizes_step (h : ClockInv s) (hsum : Summarizes Rep s) (a : Action I K σ)
    (hversion : ∀ e S v, Rep e S → Rep { e with version := v } S)
    (hput : ∀ n key value b t, a.IsPut n key value b t →
      Rep (s.putEntry n key value b t)
        fun w => w = s.putEntry n key value b t ∨ s.Counts key (s.clockOf n key) w)
    (hresolve : ∀ n remote loc, remote ∈ s.network → s.stored n remote.key = some loc →
      remote.vclock.happensBefore loc.vclock = false →
      loc.vclock.happensBefore remote.vclock = false →
      Rep loc (s.Counts remote.key loc.vclock.count) →
      Rep remote (s.Counts remote.key remote.vclock.count) →
      Rep (s.resolvedEntry n loc remote)
        fun w => s.Counts remote.key loc.vclock.count w ∨
          s.Counts remote.key remote.vclock.count w) :
    Summarizes Rep (s.step a) := by
  cases step_storeStep s a with
  | frame _ hhas hwrites =>
    intro x hx
    rw [Cluster.counts_congr hwrites]
    exact hsum x (hhas x hx)
  | put n key value b t hact _ hset hwrites =>
    intro x hx
    rcases hset.of_has hx with hx | ⟨v, rfl⟩
    · -- old clocks do not count the new operation
      rw [Cluster.counts_of_lt hwrites fun hkey => ?_]
      · exact hsum x hx
      · have hxkey : x.key = key := hkey
        rw [opNumber_putEntry h.ids, putEntry_nodeID h.ids, ← hxkey]
        exact Nat.lt_succ_of_le (h.bounded x hx n)
    · refine hversion _ _ _ ?_
      show Rep _ ((s.step a).Counts key (s.putEntry n key value b t).vclock.count)
      rw [h.counts_putEntry hwrites]
      exact hput n key value b t hact
  | take n remote t hmem _ hle hset hwrites =>
    intro x hx
    rw [Cluster.counts_congr hwrites]
    rcases hset.of_has hx with hx | ⟨v, rfl⟩
    · exact hsum x hx
    · exact hversion _ _ _ (hsum remote (.inl hmem))
  | resolve n remote loc t hmem _ hloc h₁ h₂ hset hwrites =>
    intro x hx
    rw [Cluster.counts_congr hwrites]
    rcases hset.of_has hx with hx | ⟨v, rfl⟩
    · exact hsum x hx
    refine hversion _ _ _ ?_
    dsimp only
    rw [h.resolvedEntry_key hloc, resolvedEntry_vclock, Cluster.counts_sup]
    have hlocRep := hsum loc (.inr ⟨n, remote.key, hloc⟩)
    rw [h.key_eq n remote.key loc hloc] at hlocRep
    exact hresolve n remote loc hmem hloc h₁ h₂ hlocRep (hsum remote (.inl hmem))

/-- **Nodes with equal clocks agree**, when versions that stand for the same operations agree and a
version stands for at least one operation. -/
theorem Summarizes.agree {Agree : KVEntry I K (Value σ) → KVEntry I K (Value σ) → Prop}
    (hsum : Summarizes Rep s) (h : ClockInv s)
    (hmem : ∀ e key vc, Rep e (s.Counts key vc) → ∃ w, s.Counts key vc w)
    (hagree : ∀ e e' key vc, Rep e (s.Counts key vc) → Rep e' (s.Counts key vc) → Agree e e')
    {m : I} (heq : s.clockOf n key = s.clockOf m key) :
    Option.Rel Agree (s.stored n key) (s.stored m key) := by
  -- a stored version counts an operation, and the zero clock counts none
  have hne : ∀ i e, s.stored i key = some e → s.clockOf i key ≠ 0 := by
    intro i e he hz
    obtain ⟨w, hw⟩ := hmem e key _ (hsum.stored h he)
    rw [hz] at hw
    exact h.not_counts_zero key w hw
  cases hn : s.stored n key with
  | none =>
    cases hm : s.stored m key with
    | none => exact .none
    | some e => exact absurd (heq.symm.trans (Cluster.clockOf_of_none hn)) (hne m e hm)
  | some e =>
    cases hm : s.stored m key with
    | none => exact absurd (heq.trans (Cluster.clockOf_of_none hm)) (hne n e hn)
    | some e' =>
      have hrep := hsum.stored h hn
      rw [heq] at hrep
      exact .some (hagree e e' key _ hrep (hsum.stored h hm))

end clocks

/-- Every run keeps the numbering. -/
lemma clockInv_run {s : Cluster I K σ} (h : ClockInv s) (as : List (Action I K σ)) :
    ClockInv (run Cluster.step s as) :=
  run_invariant' ClockInv (fun _ a hs => clockInv_step hs a) as h

/-- No run decreases a stored clock. -/
lemma clockOf_le_run {s : Cluster I K σ} (h : ClockInv s) (as : List (Action I K σ)) (m : I)
    (k : K) : s.clockOf m k ≤ (run Cluster.step s as).clockOf m k := by
  induction as generalizing s with
  | nil => exact le_rfl
  | cons a as ih => exact (clockOf_le_step h a m k).trans (ih (clockInv_step h a))

end Replication.MultiLeader
