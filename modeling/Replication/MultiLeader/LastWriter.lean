import Replication.MultiLeader.Clocks

/-!
# Multi leader · LastWriter: convergence under last-write-wins

Under the resolvers that come down to last-write-wins, a stored version is the greatest operation,
by timestamp and then node id, among those its vector clock counts. A node that resolves a conflict
keeps one of the two versions under the join of their clocks, and a node that writes stamps the
operation above everything it has seen.
-/

set_option linter.unusedSectionVars false

namespace Replication.MultiLeader

open Storage Conflict Node Clock Library

variable {I K σ : Type} [LinearOrder I] [DecidableEq K] [LinearOrder σ] [Inhabited σ]
  {a : Action I K σ} {e : KVEntry I K (Value σ)} {n : I} {t : ℤ}

/-- The hybrid clock that stamps the operation of a step is in its physical range. -/
def Cluster.stampsInRange (s : Cluster I K σ) : Action I K σ → Bool
  | .write n _ _ t => (s.nodes n).hlc.inRange t
  | .delete n _ t => (s.nodes n).hlc.inRange t
  | _ => true

/-- The condition, for a local operation. -/
lemma Cluster.inRange_of_isPut {s : Cluster I K σ} {key : K} {value : Value σ} {b : Bool}
    (h : a.IsPut n key value b t) (hr : s.stampsInRange a = true) :
    (s.nodes n).hlc.inRange t = true := by
  rcases h with ⟨rfl, -⟩ | ⟨rfl, -, -⟩ <;> exact hr

/-! ### Stamps -/

/-- Hybrid clocks are above the stamps a node has seen, and stamps identify operations. -/
structure StampInv (s : Cluster I K σ) : Prop where
  valid : ∀ n, (s.nodes n).hlc.Valid
  nonneg : ∀ e, s.Has e → 0 ≤ e.timestamp
  /-- The clock of a node is not behind what it stores. -/
  stored_le : ∀ n key e, s.stored n key = some e → e.timestamp ≤ (s.nodes n).hlc.value
  writes_le : ∀ w ∈ s.writes, w.timestamp ≤ (s.nodes w.nodeID).hlc.value
  distinct : ∀ w ∈ s.writes, ∀ w' ∈ s.writes, w.stamp = w'.stamp → w = w'

/-- A new cluster has no stamps. -/
lemma stampInv_init (resolver : I → Resolver) :
    StampInv (Cluster.init resolver : Cluster I K σ) := by
  have hnone : ∀ n key e, (Cluster.init resolver : Cluster I K σ).stored n key ≠ some e := by
    intro n key e he
    cases he
  refine ⟨fun _ => HLC.valid_new, ?_, fun n key e he => absurd he (hnone n key e), nofun, nofun⟩
  rintro e (he | ⟨n, key, he⟩)
  · cases he
  · exact absurd he (hnone n key e)

section stamps

variable {s : Cluster I K σ}

/-- **Hybrid clocks only advance.** -/
theorem advances_step (hv : ∀ n, (s.nodes n).hlc.Valid) (hr : s.stampsInRange a = true) (n : I) :
    HLC.Advances (s.nodes n).hlc ((s.step a).nodes n).hlc := by
  have hsame : ∀ m, HLC.Advances (s.nodes m).hlc (s.nodes m).hlc := fun m => ⟨hv m, le_rfl⟩
  have hset : ∀ (m : I) (node : MultiLeaderNode I K (Value σ)),
      HLC.Advances (s.nodes m).hlc node.hlc →
        HLC.Advances (s.nodes n).hlc ((s.setNode m node).nodes n).hlc := fun m node hadv =>
    Cluster.setNode_cases (P := fun x => HLC.Advances (s.nodes n).hlc x.hlc) (fun hn => hn ▸ hadv)
      fun _ => hsame n
  have h := step_outcome s a
  generalize s.step a = s' at h ⊢
  cases h with
  | idle | send => exact hsame n
  | put m key value b t hact =>
    obtain ⟨hv', heq, hlt⟩ := HLC.now_spec (hv m) (Cluster.inRange_of_isPut hact hr)
    exact hset m ((s.nodes m).put key value b t).1 ⟨hv', (heq ▸ hlt).le⟩
  | receive m i t _ remote =>
    refine hset m _ ?_
    rw [((s.nodes m).receiveRemoteWrite_frame remote t).2.2.2]
    obtain ⟨hv', hlt, -⟩ := HLC.update_spec (t := t) (hv m) remote.timestamp
    exact ⟨hv', hlt.le⟩
  | switch m => exact hset m _ (hsame m)
  | skew m => exact hset m _ ⟨⟨(hv m).1, (hv m).2⟩, le_rfl⟩

/-- Storing a version that the clock of the node is not behind. -/
lemma StampInv.set (h : StampInv s) {s' : Cluster I K σ} (hset : SetStep s s' n e)
    (hadv : ∀ m, HLC.Advances (s.nodes m).hlc (s'.nodes m).hlc) (hnn : 0 ≤ e.timestamp)
    (hle : e.timestamp ≤ (s'.nodes n).hlc.value)
    (hwrites : s'.writes = s.writes ∨ s'.writes = s.writes ++ [e] ∧ e.nodeID = n ∧
      (s.nodes n).hlc.value < e.timestamp) : StampInv s' := by
  have hold : ∀ w ∈ s.writes, w.timestamp ≤ (s'.nodes w.nodeID).hlc.value := fun w hw =>
    (h.writes_le w hw).trans (hadv w.nodeID).le
  refine ⟨fun m => (hadv m).valid, ?_, ?_, ?_, ?_⟩
  · intro x hx
    rcases hset.of_has hx with hx | ⟨v, rfl⟩
    · exact h.nonneg x hx
    · exact hnn
  · intro m key x hx
    by_cases hne : m = n ∧ key = e.key
    · obtain ⟨rfl, rfl⟩ := hne
      rw [hset.stored_self, Option.some.injEq] at hx
      rw [← hx]
      exact hle
    · rw [hset.stored_of_ne hne] at hx
      exact (h.stored_le m key x hx).trans (hadv m).le
  · intro w hw
    rcases hwrites with heq | ⟨heq, hnode, -⟩
    · exact hold w (heq ▸ hw)
    rw [heq] at hw
    rcases List.mem_append.mp hw with hw | hw
    · exact hold w hw
    · rw [List.mem_singleton.mp hw, hnode]
      exact hle
  · rcases hwrites with heq | ⟨heq, hnode, hlt⟩
    · rw [heq]
      exact h.distinct
    · rw [heq]
      -- the new stamp is above those of the old operations of its node
      have hfresh : ∀ w ∈ s.writes, w.stamp ≠ e.stamp := by
        intro w hw hstamp
        obtain ⟨htime, hid⟩ := KVEntry.stamp_eq_iff.mp hstamp
        have := h.writes_le w hw
        rw [htime, hid, hnode] at this
        exact absurd hlt (not_lt.mpr this)
      intro w hw w' hw' hstamp
      rcases List.mem_append.mp hw with hold | hnew <;>
        rcases List.mem_append.mp hw' with hold' | hnew'
      · exact h.distinct w hold w' hold' hstamp
      · rw [List.mem_singleton.mp hnew'] at hstamp
        exact absurd hstamp (hfresh w hold)
      · rw [List.mem_singleton.mp hnew] at hstamp
        exact absurd hstamp.symm (hfresh w' hold')
      · rw [List.mem_singleton.mp hnew, List.mem_singleton.mp hnew']

/-- A local operation is stamped by the clock, above what it was. -/
lemma StampInv.putEntry_timestamp (h : StampInv s) (hr : (s.nodes n).hlc.inRange t = true)
    (key : K) (value : Value σ) (b : Bool) :
    (s.putEntry n key value b t).timestamp = ((s.nodes n).hlc.now t).1.value ∧
      (s.nodes n).hlc.value < (s.putEntry n key value b t).timestamp :=
  (HLC.now_spec (h.valid n) hr).2

/-- **Every step in range keeps the order of stamps.** -/
theorem stampInv_step (hc : ClockInv s) (h : StampInv s) (hr : s.stampsInRange a = true) :
    StampInv (s.step a) := by
  have hadv := advances_step h.valid hr
  cases step_storeStep s a with
  | frame hstored hhas hwrites =>
    refine ⟨fun m => (hadv m).valid, fun x hx => h.nonneg x (hhas x hx), fun m key x hx => ?_,
      fun w hw => ?_, ?_⟩
    · exact (h.stored_le m key x (hstored m key ▸ hx)).trans (hadv m).le
    · exact (h.writes_le w (hwrites ▸ hw)).trans (hadv w.nodeID).le
    · rw [hwrites]
      exact h.distinct
  | put n key value b t hact hhlc hset hwrites =>
    obtain ⟨heq, hlt⟩ := h.putEntry_timestamp (Cluster.inRange_of_isPut hact hr) key value b
    refine h.set hset hadv ((HLC.value_nonneg (h.valid n)).trans hlt.le) ?_
      (.inr ⟨hwrites, putEntry_nodeID hc.ids n key value b t, hlt⟩)
    rw [heq, hhlc]
  | take n remote t hmem hhlc hle hset hwrites =>
    refine h.set hset hadv (h.nonneg remote (.inl hmem)) ?_ (.inl hwrites)
    rw [hhlc]
    exact (HLC.update_spec (h.valid n) remote.timestamp).2.2.le
  | resolve n remote loc t hmem hhlc hloc h₁ h₂ hset hwrites =>
    refine h.set hset hadv ?_ ?_ (.inl hwrites)
    · rcases resolvedEntry_timestamp s n loc remote with htime | htime
      · rw [htime]
        exact h.nonneg loc (.inr ⟨n, remote.key, hloc⟩)
      · rw [htime]
        exact h.nonneg remote (.inl hmem)
    · rcases resolvedEntry_timestamp s n loc remote with htime | htime
      · rw [htime]
        exact (h.stored_le n remote.key loc hloc).trans (hadv n).le
      · rw [htime, hhlc]
        exact (HLC.update_spec (h.valid n) remote.timestamp).2.2.le

end stamps

/-! ### The greatest operation -/

/-- Two versions with the same value, tombstone flag, timestamp and node id. -/
structure SameVersion (e w : KVEntry I K (Value σ)) : Prop where
  value : e.value = w.value
  tombstone : e.tombstone = w.tombstone
  timestamp : e.timestamp = w.timestamp
  nodeID : e.nodeID = w.nodeID

/-- The same version has the same stamp. -/
lemma SameVersion.stamp {w : KVEntry I K (Value σ)} (h : SameVersion e w) : e.stamp = w.stamp :=
  KVEntry.stamp_eq_iff.mpr ⟨h.timestamp, h.nodeID⟩

/-- Two versions that are the same as a third. -/
lemma SameVersion.trans_symm {e' w : KVEntry I K (Value σ)} (h : SameVersion e w)
    (h' : SameVersion e' w) : SameVersion e e' :=
  ⟨h.value.trans h'.value.symm, h.tombstone.trans h'.tombstone.symm,
    h.timestamp.trans h'.timestamp.symm, h.nodeID.trans h'.nodeID.symm⟩

/-- A version is the greatest operation of a set. -/
def LastWriter (e : KVEntry I K (Value σ)) (S : KVEntry I K (Value σ) → Prop) : Prop :=
  ∃ w, Top KVEntry.stamp S w ∧ SameVersion e w

/-- Stamps of their own leave one greatest operation. -/
lemma LastWriter.sameVersion {e' : KVEntry I K (Value σ)} {S : KVEntry I K (Value σ) → Prop}
    (h : LastWriter e S) (h' : LastWriter e' S)
    (hinj : ∀ x y, S x → S y → x.stamp = y.stamp → x = y) : SameVersion e e' := by
  obtain ⟨w, htop, hsame⟩ := h
  obtain ⟨w', htop', hsame'⟩ := h'
  rw [htop'.unique htop hinj] at hsame'
  exact hsame.trans_symm hsame'

section lastWriter

variable {s : Cluster I K σ}

/-- **A local operation is the greatest** of those counted by its clock. -/
theorem lastWriter_put (hc : ClockInv s) (h : StampInv s) (hr : (s.nodes n).hlc.inRange t = true)
    (key : K) (value : Value σ) (b : Bool)
    (hstored : ∀ e, s.stored n key = some e → LastWriter e (s.Counts key (s.clockOf n key))) :
    LastWriter (s.putEntry n key value b t)
      fun w => w = s.putEntry n key value b t ∨ s.Counts key (s.clockOf n key) w := by
  refine ⟨s.putEntry n key value b t, Top.next fun x hx => ?_, rfl, rfl, rfl, rfl⟩
  cases hs : s.stored n key with
  | none =>
    rw [Cluster.clockOf_of_none hs] at hx
    exact absurd hx (hc.not_counts_zero key x)
  | some e =>
    obtain ⟨w, htop, hsame⟩ := hstored e hs
    have hlt := (h.putEntry_timestamp hr key value b).2
    calc x.stamp ≤ w.stamp := htop.le x hx
      _ = e.stamp := hsame.stamp.symm
      _ ≤ (s.putEntry n key value b t).stamp := by
          refine (KVEntry.stamp_lt_iff.mpr (.inl ?_)).le
          exact (h.stored_le n key e hs).trans_lt hlt

/-- **A resolution that keeps the larger stamp is the greatest** of both sets. -/
theorem LastWriter.sup {loc remote : KVEntry I K (Value σ)} {S T : KVEntry I K (Value σ) → Prop}
    (hS : LastWriter loc S) (hT : LastWriter remote T)
    (he : SameVersion e (if loc.stamp < remote.stamp then remote else loc)) :
    LastWriter e fun w => S w ∨ T w := by
  obtain ⟨w, htop, hsame⟩ := hS
  obtain ⟨w', htop', hsame'⟩ := hT
  rw [hsame.stamp, hsame'.stamp] at he
  refine ⟨_, htop.sup htop', ?_⟩
  split_ifs at he ⊢ with hlt
  · exact ⟨he.value.trans hsame'.value, he.tombstone.trans hsame'.tombstone,
      he.timestamp.trans hsame'.timestamp, he.nodeID.trans hsame'.nodeID⟩
  · exact ⟨he.value.trans hsame.value, he.tombstone.trans hsame.tombstone,
      he.timestamp.trans hsame.timestamp, he.nodeID.trans hsame.nodeID⟩

end lastWriter

/-! ### Convergence -/

/-- What holds in every state of a run under last-write-wins. -/
structure LastWriterInv (s : Cluster I K σ) : Prop where
  clock : ClockInv s
  stamp : StampInv s
  /-- Versions are the greatest operations their clocks count. -/
  summary : Summarizes LastWriter s
  /-- Every node resolves conflicts by last-write-wins. -/
  lww : ∀ n, (s.nodes n).resolver.isLWW = true

/-- A new cluster meets the invariant. -/
lemma lastWriterInv_init {resolver : I → Resolver} (hlww : ∀ n, (resolver n).isLWW = true) :
    LastWriterInv (Cluster.init resolver : Cluster I K σ) := by
  refine ⟨clockInv_init resolver, stampInv_init resolver, ?_, hlww⟩
  rintro e (he | ⟨n, key, he⟩)
  · cases he
  · cases he

/-- **Every step in range keeps versions the greatest operations.** -/
theorem lastWriterInv_step {s : Cluster I K σ} (hr : s.stampsInRange a = true)
    (h : LastWriterInv s) : LastWriterInv (s.step a) := by
  refine ⟨clockInv_step h.clock a, stampInv_step h.clock h.stamp hr, ?_, fun n => ?_⟩
  · refine summarizes_step h.clock h.summary a ?_ ?_ ?_
    · rintro e S v ⟨w, htop, hval, htomb, htime, hnode⟩
      exact ⟨w, htop, hval, htomb, htime, hnode⟩
    · intro n key value b t hact
      exact lastWriter_put h.clock h.stamp (Cluster.inRange_of_isPut hact hr) key value b
        fun e he => h.summary.stored h.clock he
    · intro n remote loc _ _ h₁ h₂ hS hT
      have hwin := Resolver.resolve_winner_of_isLWW (h.lww n)
        ⟨remote.key, loc, remote, (s.nodes n).id⟩ h₁ h₂
      refine hS.sup hT ?_
      rw [← hwin]
      exact ⟨rfl, rfl, rfl, rfl⟩
  · rw [(step_frame s a n).2]
    exact h.lww n

/-- **Multi-leader convergence under last-write-wins**: in every run of operations and deliveries,
late, repeated, out of order or lost, with hybrid clocks in their physical range, a stored version
is the greatest operation its clock counts; nodes with equal clocks hold the same version; and
stored clocks never decrease in what follows. -/
theorem lww_convergence (resolver : I → Resolver) (hlww : ∀ n, (resolver n).isLWW = true)
    (as : List (Action I K σ))
    (h : Along Cluster.step (fun s a => s.stampsInRange a = true) (Cluster.init resolver) as) :
    (∀ n key e, (run Cluster.step (Cluster.init resolver) as).stored n key = some e →
      ∃ w, Top KVEntry.stamp
          ((run Cluster.step (Cluster.init resolver) as).Counts key e.vclock.count) w ∧
        SameVersion e w) ∧
    (∀ n m key, (run Cluster.step (Cluster.init resolver) as).clockOf n key =
        (run Cluster.step (Cluster.init resolver) as).clockOf m key →
      Option.Rel SameVersion ((run Cluster.step (Cluster.init resolver) as).stored n key)
        ((run Cluster.step (Cluster.init resolver) as).stored m key)) ∧
    ∀ bs n key, (run Cluster.step (Cluster.init resolver) as).clockOf n key ≤
      (run Cluster.step (run Cluster.step (Cluster.init resolver) as) bs).clockOf n key := by
  have hinv := run_invariant LastWriterInv (fun s a hr hs => lastWriterInv_step hr hs) h
    (lastWriterInv_init hlww)
  refine ⟨fun n key e he => ?_, fun n m key heq => hinv.summary.agree hinv.clock ?_ ?_ heq,
    fun bs n key => clockOf_le_run hinv.clock bs n key⟩
  · rw [← Cluster.clockOf_eq he]
    exact hinv.summary.stored hinv.clock he
  · rintro e key vc ⟨w, htop, -⟩
    exact ⟨w, htop.mem⟩
  · exact fun e e' key vc he he' => he.sameVersion he' fun x y hx hy =>
      hinv.stamp.distinct x hx.1.1 y hy.1.1

/-- Two nodes write and delete key `7` concurrently and receive the operation of the other, one of
them twice. -/
def exchangeRun : List (Action Bool ℕ ℕ) :=
  [Action.write false 7 (.plain [3]) 5000000, .delete true 7 6000000, .receive false 1 7000000,
    .receive true 0 7000000, .receive true 0 8000000]

/-- Both nodes then hold the delete, under the same clock. -/
theorem lww_convergence_exchange :
    ((run Cluster.step (Cluster.init fun _ => .lww) exchangeRun).stored false 7).map
        (fun e => (e.tombstone, e.nodeID)) = some (true, true) ∧
    Option.Rel SameVersion
      ((run Cluster.step (Cluster.init fun _ => .lww) exchangeRun).stored false 7)
      ((run Cluster.step (Cluster.init fun _ => .lww) exchangeRun).stored true 7) := by
  refine ⟨by decide +kernel,
    (lww_convergence (fun _ => .lww) (fun _ => rfl) exchangeRun (by decide +kernel)).2.1
      false true 7 ?_⟩
  funext i
  cases i <;> decide +kernel

end Replication.MultiLeader
