import Replication.Conflict.Merge
import Replication.Library.Join
import Replication.MultiLeader.LastWriter

/-!
# Multi leader · Merging: convergence under the CRDT resolver

The CRDT resolver merges two documents of the same type and falls back to last-write-wins on
anything else. The two rules do not fit together: the outcome of a history that mixes them depends
on the order of deliveries, as it does when a client write drops what its node had merged. A key is
safe when its operations keep to one of the rules.
-/

set_option linter.unusedSectionVars false

namespace Replication.MultiLeader

open Storage Conflict Node Clock Library

variable {I K σ : Type} [LinearOrder I] [DecidableEq K] [LinearOrder σ] [Inhabited σ]
  {s : Cluster I K σ} {a : Action I K σ} {e : KVEntry I K (Value σ)} {key : K} {n : I} {vc : I → ℕ}

/-- A client operation keeps to the rule of its key: the values of the key do not merge, or they are
documents of one type and the new one is its own merge, commutes with the earlier ones and contains
what the node has stored. Hybrid clocks are in range. -/
def Cluster.keepsRule (s : Cluster I K σ) : Action I K σ → Bool
  | .write n key value t =>
    (s.nodes n).hlc.inRange t = true ∧
    (∀ w ∈ s.writes, w.key = key → w.value.mergeType = value.mergeType) ∧
    (value.mergeType ≠ none →
      mergedValue value value = some value ∧
      (∀ w ∈ s.writes, w.key = key → mergedValue w.value value = mergedValue value w.value) ∧
      ∀ e ∈ s.stored n key, mergedValue e.value value = some value)
  | .delete n key t =>
    (s.nodes n).hlc.inRange t = true ∧
    ∀ w ∈ s.writes, w.key = key → w.value.mergeType = none
  | _ => true

/-- The rule asks for clocks in range. -/
lemma Cluster.stampsInRange_of_keepsRule (h : s.keepsRule a = true) : s.stampsInRange a = true := by
  cases a with
  | write | delete => exact (of_decide_eq_true h).1
  | _ => rfl

/-- The rule, for a local operation. -/
lemma Cluster.keepsRule_put (h : s.keepsRule a = true) {value : Value σ} {b : Bool} {t : ℤ}
    (hact : a.IsPut n key value b t) :
    (∀ w ∈ s.writes, w.key = key → w.value.mergeType = value.mergeType) ∧
      (value.mergeType ≠ none → b = false ∧
        mergedValue value value = some value ∧
        (∀ w ∈ s.writes, w.key = key → mergedValue w.value value = mergedValue value w.value) ∧
        ∀ e ∈ s.stored n key, mergedValue e.value value = some value) := by
  rcases hact with ⟨rfl, rfl⟩ | ⟨rfl, rfl, rfl⟩
  · obtain ⟨-, htype, hdoc⟩ := of_decide_eq_true h
    exact ⟨htype, fun hne => ⟨rfl, hdoc hne⟩⟩
  · obtain ⟨-, htype⟩ := of_decide_eq_true h
    exact ⟨htype, fun hne => absurd rfl hne⟩

/-! ### Operations that keep to one rule -/

/-- The operations on a key have one type, and its documents are commuting idempotents. -/
structure Joinable (ws : List (KVEntry I K (Value σ))) : Prop where
  type : ∀ w ∈ ws, ∀ w' ∈ ws, w.key = w'.key → w.value.mergeType = w'.value.mergeType
  idem : ∀ w ∈ ws, w.value.mergeType ≠ none → mergedValue w.value w.value = some w.value
  comm : ∀ w ∈ ws, ∀ w' ∈ ws, w.key = w'.key → w.value.mergeType ≠ none →
    mergedValue w.value w'.value = mergedValue w'.value w.value

/-- No operations are joinable. -/
lemma Joinable.nil : Joinable ([] : List (KVEntry I K (Value σ))) :=
  ⟨nofun, nofun, nofun⟩

/-- So is an operation that fits to the others. -/
lemma Joinable.append {ws : List (KVEntry I K (Value σ))} (h : Joinable ws)
    (htype : ∀ w ∈ ws, w.key = e.key → w.value.mergeType = e.value.mergeType)
    (hidem : e.value.mergeType ≠ none → mergedValue e.value e.value = some e.value)
    (hcomm : e.value.mergeType ≠ none → ∀ w ∈ ws, w.key = e.key →
      mergedValue w.value e.value = mergedValue e.value w.value) : Joinable (ws ++ [e]) := by
  have hcases : ∀ w ∈ ws ++ [e], w ∈ ws ∨ w = e := fun w hw =>
    (List.mem_append.mp hw).imp_right List.mem_singleton.mp
  refine ⟨fun w hw w' hw' hkey => ?_, fun w hw hne => ?_, fun w hw w' hw' hkey hne => ?_⟩
  · rcases hcases w hw with hold | rfl <;> rcases hcases w' hw' with hold' | rfl
    · exact h.type w hold w' hold' hkey
    · exact htype w hold hkey
    · exact (htype w' hold' hkey.symm).symm
    · rfl
  · rcases hcases w hw with hold | rfl
    · exact h.idem w hold hne
    · exact hidem hne
  · rcases hcases w hw with hold | rfl <;> rcases hcases w' hw' with hold' | rfl
    · exact h.comm w hold w' hold' hkey hne
    · exact hcomm (htype w hold hkey ▸ hne) w hold hkey
    · exact (hcomm hne w' hold' hkey.symm).symm
    · rfl

/-! ### What a version stands for -/

/-- The value of an operation, as an element of the semigroup of merges. -/
def operand (w : KVEntry I K (Value σ)) : MergeResult σ := .of w.value

/-- A version is the greatest of a set of operations whose values do not merge, or the join of
their documents. -/
inductive OneRule (e : KVEntry I K (Value σ)) (S : KVEntry I K (Value σ) → Prop) : Prop
  | register (htype : e.value.mergeType = none) (hlast : LastWriter e S)
  | join (htype : e.value.mergeType ≠ none) (htomb : e.tombstone = false)
      (hjoin : Joins operand S (.of e.value))

/-- A version stands for at least one operation. -/
lemma OneRule.nonempty {S : KVEntry I K (Value σ) → Prop} (h : OneRule e S) : ∃ w, S w := by
  rcases h with ⟨-, w, htop, -⟩ | ⟨-, -, hjoin⟩
  · exact ⟨w, htop.mem⟩
  · exact hjoin.nonempty

/-- It has the type of its operations. -/
lemma OneRule.mergeType {S : KVEntry I K (Value σ) → Prop} (h : OneRule e S)
    {τ : Option MergeType} (hτ : ∀ w, S w → w.value.mergeType = τ) : e.value.mergeType = τ := by
  rcases h with ⟨-, w, htop, hsame⟩ | ⟨-, -, hjoin⟩
  · rw [hsame.value]
    exact hτ w htop.mem
  refine hjoin.induction (P := fun m => ∀ v, m = .of v → v.mergeType = τ) ?_ ?_ e.value rfl
  · intro w hw v hv
    rw [← MergeResult.of_injective hv]
    exact hτ w hw
  · intro a b ha _ x hx
    obtain ⟨v, w, rfl, -, hmerge⟩ := MergeResult.exists_of_mul_eq hx
    obtain ⟨r, hr, rfl⟩ := Option.map_eq_some_iff.mp hmerge
    rcases mergeCRDT_cases v w with ⟨hnone, -⟩ | ⟨y, r', hsome, -, -, hy⟩
    · simp [hnone] at hr
    · rw [hsome] at hr
      cases hr
      exact hy.trans (ha v rfl)

section rule

variable {s : Cluster I K σ}

/-- The operations counted for a key have one type. -/
lemma Joinable.counts_type (hj : Joinable s.writes) {w w' : KVEntry I K (Value σ)}
    (hw : w ∈ s.writes) (hkey : w.key = key) (hw' : s.Counts key vc w') :
    w'.value.mergeType = w.value.mergeType :=
  hj.type w' hw'.1.1 w hw (hw'.1.2.trans hkey.symm)

/-- A version has the type of every operation on its key. -/
lemma OneRule.type_of_mem (hj : Joinable s.writes) {w : KVEntry I K (Value σ)}
    (he : OneRule e (s.Counts key vc)) (hw : w ∈ s.writes) (hkey : w.key = key) :
    e.value.mergeType = w.value.mergeType :=
  he.mergeType fun _ hw' => hj.counts_type hw hkey hw'

/-- **A local operation** keeps to the rule of its key. -/
theorem oneRule_put (hc : ClockInv s) (h : StampInv s) (hsum : Summarizes OneRule s)
    (hr : s.keepsRule a = true) {value : Value σ} {b : Bool} {t : ℤ}
    (hact : a.IsPut n key value b t) :
    OneRule (s.putEntry n key value b t)
      fun w => w = s.putEntry n key value b t ∨ s.Counts key (s.clockOf n key) w := by
  obtain ⟨htype, hdoc⟩ := Cluster.keepsRule_put hr hact
  have hvalue : (s.putEntry n key value b t).value = value := rfl
  -- what is stored has the type of the new value
  have hstored : ∀ e, s.stored n key = some e → e.value.mergeType = value.mergeType := by
    intro e he
    have hrule := hsum.stored hc he
    exact hrule.mergeType fun w hw => htype w hw.1.1 hw.1.2
  by_cases hnone : value.mergeType = none
  · refine .register hnone (lastWriter_put hc h ?_ key value b fun e he => ?_)
    · exact Cluster.inRange_of_isPut hact (Cluster.stampsInRange_of_keepsRule hr)
    · rcases hsum.stored hc he with ⟨-, hlast⟩ | ⟨hne, -, -⟩
      · exact hlast
      · exact absurd ((hstored e he).trans hnone) hne
  · obtain ⟨hb, -, -, habsorb⟩ := hdoc hnone
    refine .join hnone hb ?_
    have hsingle := Joins.single operand (s.putEntry n key value b t)
    cases hs : s.stored n key with
    | none =>
      -- nothing is counted before the operation
      have hzero : ∀ w, ¬ s.Counts key (s.clockOf n key) w := by
        intro w
        rw [Cluster.clockOf_of_none hs]
        exact hc.not_counts_zero key w
      simp only [hzero, or_false]
      exact hsingle
    | some e =>
      rcases hsum.stored hc hs with ⟨hnone', -⟩ | ⟨-, -, hjoin⟩
      · exact absurd ((hstored e hs).symm.trans hnone') hnone
      have hmul := hjoin.mul hsingle
      rw [show MergeResult.of e.value * operand (s.putEntry n key value b t) =
        .of value from MergeResult.of_mul_of (habsorb e hs)] at hmul
      simp only [or_comm (a := s.Counts key _ _)] at hmul
      exact hmul

/-- **A resolution** keeps to the rule of its key. -/
theorem oneRule_resolve (hj : Joinable s.writes) (hcrdt : (s.nodes n).resolver = .crdt)
    {loc remote : KVEntry I K (Value σ)} (hloc : OneRule loc (s.Counts remote.key loc.vclock.count))
    (hremote : OneRule remote (s.Counts remote.key remote.vclock.count)) :
    OneRule (s.resolvedEntry n loc remote)
      fun w => s.Counts remote.key loc.vclock.count w ∨
        s.Counts remote.key remote.vclock.count w := by
  obtain ⟨w, hw⟩ := hloc.nonempty
  have htype : loc.value.mergeType = remote.value.mergeType :=
    (hloc.type_of_mem hj hw.1.1 hw.1.2).trans (hremote.type_of_mem hj hw.1.1 hw.1.2).symm
  have hwinner : ((s.nodes n).resolver.resolve
      ⟨remote.key, loc, remote, (s.nodes n).id⟩).winner =
        (crdtResolve ⟨remote.key, loc, remote, (s.nodes n).id⟩).winner := by
    rw [hcrdt]
    rfl
  rcases hloc with ⟨hnone, hlast⟩ | ⟨hne, -, hjoin⟩
  · -- last-write-wins on both sides
    rcases hremote with ⟨hnone', hlast'⟩ | ⟨hne', -, -⟩
    · have hreg := crdtResolve_winner_of_none ⟨remote.key, loc, remote, (s.nodes n).id⟩
        (mergeCRDT_eq_none hnone)
      rw [← hwinner] at hreg
      refine .register ?_ (hlast.sup hlast' ?_)
      · show ((s.nodes n).resolver.resolve _).winner.value.mergeType = none
        rw [hreg]
        split_ifs
        · exact hnone'
        · exact hnone
      · rw [← hreg]
        exact ⟨rfl, rfl, rfl, rfl⟩
    · exact absurd (htype.symm.trans hnone) hne'
  · rcases hremote with ⟨hnone', -⟩ | ⟨-, -, hjoin'⟩
    · exact absurd (htype.trans hnone') hne
    · rcases mergeCRDT_cases loc.value remote.value with ⟨-, hnot⟩ | ⟨x, r, hsome, -, -, hx⟩
      · exact absurd ⟨htype, hne⟩ hnot
      · have hres : (crdtResolve ⟨remote.key, loc, remote, (s.nodes n).id⟩).winner.value = x ∧
            (crdtResolve ⟨remote.key, loc, remote, (s.nodes n).id⟩).winner.tombstone = false := by
          unfold crdtResolve
          rw [hsome]
          exact ⟨rfl, rfl⟩
        rw [← hwinner] at hres
        have hmul := hjoin.mul hjoin'
        rw [MergeResult.of_mul_of (x := x) (by rw [mergedValue, hsome]; rfl)] at hmul
        refine .join ?_ hres.2 ?_
        · show ((s.nodes n).resolver.resolve _).winner.value.mergeType ≠ none
          rw [hres.1, hx]
          exact hne
        · show Joins operand _ (.of ((s.nodes n).resolver.resolve _).winner.value)
          rw [hres.1]
          exact hmul

/-- Versions that stand for the same operations agree. -/
lemma OneRule.agree (h : StampInv s) (hj : Joinable s.writes) {e' : KVEntry I K (Value σ)}
    (he : OneRule e (s.Counts key vc)) (he' : OneRule e' (s.Counts key vc)) :
    e.value = e'.value ∧ e.tombstone = e'.tombstone := by
  obtain ⟨w, hw⟩ := he.nonempty
  have htype := he.type_of_mem hj hw.1.1 hw.1.2
  have htype' := he'.type_of_mem hj hw.1.1 hw.1.2
  rcases he with ⟨hnone, hlast⟩ | ⟨hne, htomb, hjoin⟩
  · rcases he' with ⟨-, hlast'⟩ | ⟨hne', -, -⟩
    · have hsame := hlast.sameVersion hlast' fun x y hx hy => h.distinct x hx.1.1 y hy.1.1
      exact ⟨hsame.value, hsame.tombstone⟩
    · exact absurd (htype'.trans (htype.symm.trans hnone)) hne'
  · rcases he' with ⟨hnone', -⟩ | ⟨-, htomb', hjoin'⟩
    · exact absurd (htype.trans (htype'.symm.trans hnone')) hne
    · -- the documents counted are commuting idempotents
      have hdoc : ∀ x, s.Counts key vc x → x.value.mergeType ≠ none := by
        intro x hx
        rw [hj.counts_type hw.1.1 hw.1.2 hx, ← htype]
        exact hne
      refine ⟨MergeResult.of_injective (hjoin.unique hjoin' (fun x hx => ?_) fun x y hx hy => ?_),
        htomb.trans htomb'.symm⟩
      · exact MergeResult.of_mul_of (hj.idem x hx.1.1 (hdoc x hx))
      · exact MergeResult.of_mul_comm
          (hj.comm x hx.1.1 y hy.1.1 (hx.1.2.trans hy.1.2.symm) (hdoc x hx))

end rule

/-! ### Convergence -/

/-- What holds in every state of a run that keeps to the rules. -/
structure OneRuleInv (s : Cluster I K σ) : Prop where
  clock : ClockInv s
  stamp : StampInv s
  joinable : Joinable s.writes
  summary : Summarizes OneRule s
  crdt : ∀ n, (s.nodes n).resolver = .crdt

/-- A new cluster meets the invariant. -/
lemma oneRuleInv_init : OneRuleInv (Cluster.init fun _ => .crdt : Cluster I K σ) := by
  refine ⟨clockInv_init _, stampInv_init _, Joinable.nil, ?_, fun _ => rfl⟩
  rintro e (he | ⟨n, key, he⟩)
  · cases he
  · cases he

/-- **Every step that keeps to the rules keeps versions joins or greatest operations.** -/
theorem oneRuleInv_step (hr : s.keepsRule a = true) (h : OneRuleInv s) : OneRuleInv (s.step a) := by
  have hrange := Cluster.stampsInRange_of_keepsRule hr
  refine ⟨clockInv_step h.clock a, stampInv_step h.clock h.stamp hrange, ?_, ?_, fun n => ?_⟩
  · rcases (step_storeStep s a).writes_or_put with
      hwrites | ⟨n, key, value, b, t, hact, hwrites⟩
    · rw [hwrites]
      exact h.joinable
    · obtain ⟨htype, hdoc⟩ := Cluster.keepsRule_put hr hact
      rw [hwrites]
      exact h.joinable.append htype (fun hne => (hdoc hne).2.1) fun hne => (hdoc hne).2.2.1
  · refine summarizes_step h.clock h.summary a ?_ ?_ ?_
    · rintro e S v (⟨htype, w, htop, hval, htomb, htime, hnode⟩ | ⟨htype, htomb, hjoin⟩)
      · exact .register htype ⟨w, htop, hval, htomb, htime, hnode⟩
      · exact .join htype htomb hjoin
    · intro n key value b t hact
      exact oneRule_put h.clock h.stamp h.summary hr hact
    · intro n remote loc _ _ _ _ hloc hremote
      exact oneRule_resolve h.joinable (h.crdt n) hloc hremote
  · rw [(step_frame s a n).2]
    exact h.crdt n

/-- **Multi-leader convergence under the CRDT resolver**: in every run of operations that keep to
the rule of their key, and of deliveries, late, repeated, out of order or lost, nodes with equal
clocks for a key hold the same value and tombstone flag. -/
theorem crdt_convergence (as : List (Action I K σ))
    (h : Along Cluster.step (fun s a => s.keepsRule a = true) (Cluster.init fun _ => .crdt) as)
    (n m : I) (key : K)
    (heq : (run Cluster.step (Cluster.init fun _ => .crdt) as).clockOf n key =
      (run Cluster.step (Cluster.init fun _ => .crdt) as).clockOf m key) :
    Option.Rel (fun e e' => e.value = e'.value ∧ e.tombstone = e'.tombstone)
      ((run Cluster.step (Cluster.init fun _ => .crdt) as).stored n key)
      ((run Cluster.step (Cluster.init fun _ => .crdt) as).stored m key) := by
  have hinv := run_invariant OneRuleInv (fun s a hr hs => oneRuleInv_step hr hs) h oneRuleInv_init
  refine hinv.summary.agree hinv.clock (fun e key vc he => he.nonempty) ?_ heq
  exact fun e e' key vc he he' => he.agree hinv.stamp hinv.joinable he'

/-- Versions that agree have equal values. -/
lemma map_value_of_rel {a b : Option (KVEntry I K (Value σ))}
    (h : Option.Rel (fun e e' => e.value = e'.value ∧ e.tombstone = e'.tombstone) a b) :
    a.map KVEntry.value = b.map KVEntry.value := by
  cases h with
  | some h => rw [Option.map_some, Option.map_some, h.1]
  | none => rfl

/-- A G-counter with one slot. -/
def oneSlot (slot count : ℕ) : Value ℕ := .doc (.gcounter ⟨some (.single slot count)⟩) 0

/-- Two nodes count in their own slots of a G-counter and receive the counter of the other. -/
def counterRun : List (Action Bool ℕ ℕ) :=
  [Action.write false 7 (oneSlot 1 2) 5000000, .write true 7 (oneSlot 2 3) 6000000,
    .receive false 1 7000000, .receive true 0 7000000]

/-- Both nodes then hold the merged counter. -/
theorem crdt_convergence_counter :
    ((run Cluster.step (Cluster.init fun _ => .crdt) counterRun).stored false 7).map
      KVEntry.value = some
        (.doc (.gcounter ⟨some ((VectorClock.single 1 2).merge (.single 2 3))⟩) 0) ∧
    Option.Rel (fun e e' => e.value = e'.value ∧ e.tombstone = e'.tombstone)
      ((run Cluster.step (Cluster.init fun _ => .crdt) counterRun).stored false 7)
      ((run Cluster.step (Cluster.init fun _ => .crdt) counterRun).stored true 7) := by
  refine ⟨by decide +kernel, crdt_convergence counterRun (by decide +kernel) false true 7 ?_⟩
  funext i
  cases i <;> decide +kernel

/-- Nodes `0` and `2` count in their own slots of a G-counter, and node `1` deletes the key in
between. Node `0` receives the other counter first, node `1` receives it last. -/
def deleteRun : List (Action ℕ ℕ ℕ) :=
  [Action.write 0 7 (oneSlot 1 2) 5000000, .delete 1 7 6000000, .write 2 7 (oneSlot 2 3) 7000000,
    .receive 0 2 8000000, .receive 0 1 8000000, .receive 1 0 8000000, .receive 1 2 8000000]

/-- The two nodes then have the same clock, and node `1` holds one of the two counters only. -/
theorem deleted_counter_diverges :
    (run Cluster.step (Cluster.init fun _ => .crdt) deleteRun).clockOf 0 7 =
        (run Cluster.step (Cluster.init fun _ => .crdt) deleteRun).clockOf 1 7 ∧
      ((run Cluster.step (Cluster.init fun _ => .crdt) deleteRun).stored 0 7).map KVEntry.value =
        some (.doc (.gcounter ⟨some ((VectorClock.single 1 2).merge (.single 2 3))⟩) 0) ∧
      ((run Cluster.step (Cluster.init fun _ => .crdt) deleteRun).stored 1 7).map KVEntry.value =
        some (oneSlot 2 3) ∧
      ¬ Option.Rel (fun e e' => e.value = e'.value ∧ e.tombstone = e'.tombstone)
        ((run Cluster.step (Cluster.init fun _ => .crdt) deleteRun).stored 0 7)
        ((run Cluster.step (Cluster.init fun _ => .crdt) deleteRun).stored 1 7) := by
  have hclock : ((run Cluster.step (Cluster.init fun _ => .crdt) deleteRun).stored 0 7).map
      KVEntry.vclock =
        ((run Cluster.step (Cluster.init fun _ => .crdt) deleteRun).stored 1 7).map
          KVEntry.vclock := by
    decide +kernel
  have hvalue : ((run Cluster.step (Cluster.init fun _ => .crdt) deleteRun).stored 0 7).map
      KVEntry.value ≠
        ((run Cluster.step (Cluster.init fun _ => .crdt) deleteRun).stored 1 7).map
          KVEntry.value := by
    decide +kernel
  refine ⟨?_, by decide +kernel, by decide +kernel, fun hrel => hvalue ?_⟩
  · have := congrArg (fun o : Option (VectorClock ℕ) => o.elim 0 VectorClock.count) hclock
    simp only [Option.elim_map] at this
    exact this
  · exact map_value_of_rel hrel

end Replication.MultiLeader
