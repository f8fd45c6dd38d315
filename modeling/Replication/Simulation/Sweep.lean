import Replication.Clock.HLC
import Replication.Library.Run
import Replication.Simulation.AntiEntropy

/-!
# Simulation · Sweep: anti-entropy passes among other steps

`RunAntiEntropy` takes no lock of a node. For a divergent key it reads the stores of the online
nodes one after the other, and then sets the newest version at the nodes that are behind, one after
the other; anything can happen in between. The stores are set directly, so hybrid clocks do not see
the stamps.

* `KeyScan` — the two loops over the nodes, for one key.
-/

set_option linter.unusedSectionVars false

namespace Replication.Simulation

open Storage Clock Library Function

variable {C A I K V : Type} [LinearOrder I] [DecidableEq K] {i : I} {order : List I}
  {x : KVEntry I K V}

/-! ### Scans -/

/-- A divergent key and the newest version met so far. Source: `antientropy.go` `newestEntry`,
`RunAntiEntropy`. -/
structure KeyScan (I K V : Type) where
  key : K
  best : Option (KVEntry I K V)

/-- One round of the first loop. Source: `antientropy.go` `newestEntry`. -/
def KeyScan.meet (c : KeyScan I K V) (store : Store I K V) : KeyScan I K V :=
  { c with best := better c.best (store.getRaw c.key) }

/-- The version that the second loop sets at a node, if the node is behind. Source:
`antientropy.go` `RunAntiEntropy`. -/
def KeyScan.copies (c : KeyScan I K V) (store : Store I K V) : Option (KVEntry I K V) :=
  c.best.filter fun best => stale (store.getRaw c.key) best

/-- What a pass needs of a cluster: clocks, stores and a way to write to them. -/
structure Replicas (C I K V : Type) [DecidableEq I] [DecidableEq K] where
  hlc : C → I → HLC
  store : C → I → Store I K V
  set : C → I → KVEntry I K V → C
  hlc_set : ∀ c i e, hlc (set c i e) = hlc c
  store_set : ∀ c i e, store (set c i e) = Function.update (store c) i ((store c i).set e)

/-- A cluster with the scans that are under way. -/
structure Swept (C I K V : Type) where
  cluster : C
  /-- The scans, in the order in which they began. -/
  scans : List (KeyScan I K V)

/-- Steps of a cluster, and sections of passes. -/
inductive SweepAction (A I K : Type) where
  | base (a : A)
  | scan (key : K)
  /-- The `p`-th scan reads a node. -/
  | meet (p : ℕ) (i : I)
  /-- The `p`-th scan repairs a node. -/
  | repair (p : ℕ) (i : I)

namespace Swept

variable (R : Replicas C I K V) (act : C → A → C) (s : Swept C I K V)

/-- The version that the `p`-th scan sets at a node. -/
def copy (p : ℕ) (i : I) : Option (KVEntry I K V) :=
  s.scans[p]?.bind fun c => c.copies (R.store s.cluster i)

/-- One step. Nodes may be met in any order, and more than once. -/
def step : SweepAction A I K → Swept C I K V
  | .base a => { s with cluster := act s.cluster a }
  | .scan key => { s with scans := s.scans ++ [⟨key, none⟩] }
  | .meet p i => { s with scans := s.scans.modify p fun c => c.meet (R.store s.cluster i) }
  | .repair p i =>
    match s.copy R p i with
    | none => s
    | some best => { s with cluster := R.set s.cluster i best }

lemma inv_step {Inv : C → Prop} {a : SweepAction A I K}
    (hbase : ∀ x, a = .base x → Inv (act s.cluster x))
    (hrepair : ∀ p i best, a = .repair p i → s.copy R p i = some best →
      Inv (R.set s.cluster i best)) (h : Inv s.cluster) : Inv (s.step R act a).cluster := by
  cases a with
  | base x => exact hbase x rfl
  | scan | meet => exact h
  | repair p i =>
    cases hcopy : s.copy R p i with
    | none =>
      simp only [Swept.step, hcopy]
      exact h
    | some best =>
      simp only [Swept.step, hcopy]
      exact hrepair p i best rfl hcopy

end Swept

/-! ### A scan that nothing interrupts -/

section sweep

variable (R : Replicas C I K V) (act : C → A → C)

/-- One pass over a key: scan it, read it everywhere, repair it everywhere. -/
def sweep (p : ℕ) (order : List I) (key : K) : List (SweepAction A I K) :=
  .scan key :: (order.map (.meet p) ++ order.map (.repair p))

lemma run_meets (c : C) (scans : List (KeyScan I K V)) (scan : KeyScan I K V) (order : List I) :
    run (Swept.step R act) ⟨c, scans ++ [scan]⟩ (order.map (.meet scans.length)) =
      ⟨c, scans ++ [⟨scan.key, order.foldl
        (fun best i => better best ((R.store c i).getRaw scan.key)) scan.best⟩]⟩ := by
  induction order generalizing scan with
  | nil => rfl
  | cons i order ih =>
    rw [List.map_cons, run_cons]
    have hmeet : Swept.step R act ⟨c, scans ++ [scan]⟩ (.meet scans.length i) =
        ⟨c, scans ++ [scan.meet (R.store c i)]⟩ := by
      dsimp only [Swept.step]
      rw [List.modify_eq_take_cons_drop (by simp)]
      simp
    rw [hmeet, ih]
    rfl

/-- The second loop sets it at the nodes that are behind. -/
lemma run_repairs (scans : List (KeyScan I K V)) (scan : KeyScan I K V) (hnd : order.Nodup)
    (c : C) (i : I) :
    R.store (run (Swept.step R act) ⟨c, scans ++ [scan]⟩
        (order.map (.repair scans.length))).cluster i =
      if i ∈ order then ((scan.copies (R.store c i)).elim (R.store c i) (R.store c i).set)
      else R.store c i := by
  induction order generalizing c with
  | nil => rfl
  | cons j order ih =>
    obtain ⟨hnotin, hnd'⟩ := List.nodup_cons.mp hnd
    rw [List.map_cons, run_cons]
    have hcopy : Swept.copy R ⟨c, scans ++ [scan]⟩ scans.length j =
        scan.copies (R.store c j) := by
      simp [Swept.copy]
    cases hbest : scan.copies (R.store c j) with
    | none =>
      have hstep : Swept.step R act ⟨c, scans ++ [scan]⟩ (.repair scans.length j) =
          ⟨c, scans ++ [scan]⟩ := by
        simp only [Swept.step, hcopy, hbest]
      rw [hstep, ih hnd']
      by_cases hij : i = j
      · subst hij
        rw [if_neg hnotin, if_pos List.mem_cons_self, hbest]
        rfl
      · simp only [List.mem_cons, hij, false_or]
    | some best =>
      have hstep : Swept.step R act ⟨c, scans ++ [scan]⟩ (.repair scans.length j) =
          ⟨R.set c j best, scans ++ [scan]⟩ := by
        simp only [Swept.step, hcopy, hbest]
      rw [hstep, ih hnd', R.store_set]
      by_cases hij : i = j
      · subst hij
        rw [if_neg hnotin, if_pos List.mem_cons_self, hbest, update_self]
        rfl
      · rw [update_of_ne hij]
        simp only [List.mem_cons, hij, false_or]

/-- **A scan that nothing interrupts** reconciles its key. -/
theorem store_sweep (s : Swept C I K V) (hnd : order.Nodup) (key : K) :
    R.store (run (Swept.step R act) s (sweep s.scans.length order key)).cluster =
      reconcile (R.store s.cluster) order key := by
  funext i
  have hscan : Swept.step R act s (.scan key) = ⟨s.cluster, s.scans ++ [⟨key, none⟩]⟩ := rfl
  unfold sweep
  rw [run_cons, run_append, hscan, run_meets, run_repairs R act _ _ hnd]
  dsimp only [reconcile, KeyScan.copies]
  have hnewest : order.foldl (fun best j => better best ((R.store s.cluster j).getRaw key)) none =
      newestEntry (R.store s.cluster) order key := rfl
  rw [hnewest]
  cases newestEntry (R.store s.cluster) order key with
  | none => exact ite_self _
  | some best =>
    dsimp only
    by_cases hi : i ∈ order
    · by_cases hstale : stale ((R.store s.cluster i).getRaw key) best = true
      · rw [if_pos hi, if_pos ⟨hi, hstale⟩, Option.filter_some, if_pos hstale]
        rfl
      · rw [if_pos hi, if_neg fun h => hstale h.2, Option.filter_some, if_neg hstale]
        rfl
    · rw [if_neg hi, if_neg fun h => hi h.1]

/-- One pass over each key. -/
def sweeps (order : K → List I) : ℕ → List K → List (SweepAction A I K)
  | _, [] => []
  | p, key :: keys => sweep p (order key) key ++ sweeps order (p + 1) keys

lemma length_scans_sweep (s : Swept C I K V) (p : ℕ) (order : List I) (key : K) :
    (run (Swept.step R act) s (sweep p order key)).scans.length = s.scans.length + 1 := by
  unfold sweep
  rw [run_cons]
  refine run_invariant (P := fun _ a => ∀ k, a ≠ SweepAction.scan k)
    (fun s' : Swept C I K V => s'.scans.length = s.scans.length + 1) (fun s' a ha h => ?_)
    (along_of_forall (fun a ha => ?_) _) List.length_append
  · cases a with
    | base => exact h
    | scan k => exact absurd rfl (ha k)
    | meet => exact (List.length_modify ..).trans h
    | repair =>
      unfold Swept.step
      dsimp only
      split <;> exact h
  · rcases List.mem_append.mp ha with ha | ha <;> obtain ⟨i, -, rfl⟩ := List.mem_map.mp ha <;>
      exact nofun

/-- **A pass that nothing interrupts** is the function `runAntiEntropy`. -/
theorem store_sweeps (s : Swept C I K V) {online : List I} (hlen : 2 ≤ online.length)
    {order : K → List I} (hnd : ∀ key, (order key).Nodup) (keys : List K) :
    R.store (run (Swept.step R act) s (sweeps order s.scans.length keys)).cluster =
      runAntiEntropy (R.store s.cluster) online order keys := by
  unfold runAntiEntropy
  rw [if_neg (not_lt.mpr hlen)]
  induction keys generalizing s with
  | nil => rfl
  | cons key keys ih =>
    have hlength := length_scans_sweep R act s s.scans.length (order key) key
    rw [sweeps, run_append, List.foldl_cons, ← store_sweep R act s (hnd key), ← ih, hlength]

/-- Two keys are swept at two replicas. -/
theorem store_sweeps_two :
    let R : Replicas (Bool → Store Bool Bool ℕ) Bool Bool ℕ :=
      ⟨fun _ _ => .new, id, fun c i e => update c i ((c i).set e), fun _ _ _ => rfl,
        fun _ _ _ => rfl⟩
    let stores : Bool → Store Bool Bool ℕ := fun i =>
      (Store.new.set ⟨i, 7, .empty, 2, i, false, 0⟩).set ⟨!i, 8, .empty, 1, i, false, 0⟩
    R.store (run (Swept.step R fun c (_ : Unit) => c) ⟨stores, []⟩
        (sweeps (fun _ => [false, true]) 0 [false, true])).cluster =
      runAntiEntropy (R.store stores) [false, true] (fun _ => [false, true]) [false, true] := by
  intro R stores
  exact store_sweeps R (fun c _ => c) ⟨stores, []⟩ (show 2 ≤ [false, true].length by decide)
    (fun _ => show [false, true].Nodup by decide) [false, true]

end sweep

/-! ### Clocks and stored stamps -/

/-- A hybrid clock is well formed and not behind the stamps in a store. -/
structure Ahead (h : HLC) (store : Store I K V) : Prop where
  valid : h.Valid
  le : ∀ key x, store.data key = some x → x.timestamp ≤ h.value
  key_eq : ∀ key x, store.data key = some x → x.key = key

section ahead

variable {h h' : HLC} {store : Store I K V}

lemma ahead_new : Ahead HLC.new (.new : Store I K V) :=
  ⟨HLC.valid_new, fun _ _ hx => (nomatch hx), fun _ _ hx => (nomatch hx)⟩

section

variable (ha : Ahead h store)

include ha

lemma Ahead.advance (hadv : HLC.Advances h h') : Ahead h' store :=
  ⟨hadv.valid, fun key x hx => (ha.le key x hx).trans hadv.le, ha.key_eq⟩

lemma Ahead.of_data {store' : Store I K V} (hdata : ∀ key, store'.data key = store.data key) :
    Ahead h store' :=
  ⟨ha.valid, fun key x hx => ha.le key x (hdata key ▸ hx),
    fun key x hx => ha.key_eq key x (hdata key ▸ hx)⟩

lemma Ahead.set {e : KVEntry I K V} (he : e.timestamp ≤ h.value) : Ahead h (store.set e) := by
  refine ⟨ha.valid, fun key x hx => ?_, Store.keyed_set ha.key_eq e⟩
  rcases Store.of_data_set hx with ⟨rfl, rfl⟩ | ⟨-, hx⟩
  · exact he
  · exact ha.le key x hx

/-- **A new stamp is above what is stored.** -/
theorem Ahead.lt_now {t : ℤ} (hr : h.inRange t = true) {key : K} (hx : store.data key = some x) :
    x.timestamp < (h.now t).2 :=
  (ha.le key x hx).trans_lt (HLC.now_spec ha.valid hr).2.2

end

end ahead

/-- Every clock of a cluster is not behind what its node stores. -/
def Replicas.Ahead (R : Replicas C I K V) (c : C) : Prop :=
  ∀ i, Simulation.Ahead (R.hlc c i) (R.store c i)

lemma Replicas.Ahead.set {R : Replicas C I K V} {c : C} (h : R.Ahead c) {e : KVEntry I K V}
    (he : e.timestamp ≤ (R.hlc c i).value) : R.Ahead (R.set c i e) := by
  intro j
  rw [R.hlc_set, R.store_set]
  by_cases hj : j = i
  · subst hj
    rw [update_self]
    exact (h j).set he
  · rw [update_of_ne hj]
    exact h j

/-- Steps of the cluster meet a condition of their own, and a scan copies to a node no stamp above
its clock. -/
def Swept.keepsUp (R : Replicas C I K V) (inRange : C → A → Bool) (s : Swept C I K V) :
    SweepAction A I K → Bool
  | .base a => inRange s.cluster a
  | .scan _ => true
  | .meet _ _ => true
  | .repair p i => ∀ best ∈ s.copy R p i, best.timestamp ≤ (R.hlc s.cluster i).value

lemma Swept.keepsUp_step {R : Replicas C I K V} {act : C → A → C} {inRange : C → A → Bool}
    {Inv : C → Prop} (hbase : ∀ c a, inRange c a = true → Inv c → Inv (act c a))
    (hset : ∀ c i e, e.timestamp ≤ (R.hlc c i).value → Inv c → Inv (R.set c i e))
    (s : Swept C I K V) (a : SweepAction A I K) (hup : s.keepsUp R inRange a = true)
    (h : Inv s.cluster) : Inv (s.step R act a).cluster := by
  refine s.inv_step R act (fun x hx => ?_) (fun p i best ha hbest => ?_) h
  · subst hx
    exact hbase s.cluster x hup h
  · subst ha
    exact hset s.cluster i best (of_decide_eq_true hup best hbest) h

/-! ### The stamps that a pass leaves -/

section pass

variable {stores : I → Store I K V}

/-- What a replica holds after a key is reconciled is what it held, or has the stamp of a version of
the key at a replica that was met. -/
lemma reconcile_timestamp (hkey : KeyEq stores) {key k : K}
    (hx : (reconcile stores order key i).data k = some x) :
    (stores i).data k = some x ∨ k = key ∧ i ∈ order ∧
      ∃ j ∈ order, ∃ y, (stores j).data k = some y ∧ x.timestamp = y.timestamp := by
  rcases reconcile_cases hkey order key i with h | ⟨hi, j, hj, best, hdata, rfl, h⟩
  · rw [h] at hx
    exact .inl hx
  · rw [h] at hx
    rcases Store.of_data_set hx with ⟨rfl, rfl⟩ | ⟨-, hx⟩
    · exact .inr ⟨rfl, hi, j, hj, best, hdata, rfl⟩
    · exact .inl hx

/-- **The stamps that a pass leaves**: those that a replica had, or those of versions of a divergent
key at replicas that were met. -/
theorem runAntiEntropy_timestamp (hkey : KeyEq stores) {online : List I} {order : K → List I}
    {ks : List K} {k : K} (hx : (runAntiEntropy stores online order ks i).data k = some x) :
    (stores i).data k = some x ∨ k ∈ ks ∧ i ∈ order k ∧
      ∃ j ∈ order k, ∃ y, (stores j).data k = some y ∧ x.timestamp = y.timestamp := by
  unfold runAntiEntropy at hx
  split_ifs at hx
  · exact .inl hx
  induction ks generalizing stores with
  | nil => exact .inl hx
  | cons key ks ih =>
    rcases ih (keyEq_reconcile hkey (order key) key) hx with
      hx | ⟨hk, hi, j, hj, y, hy, hts⟩
    · rcases reconcile_timestamp hkey hx with hx | ⟨rfl, hi, hfrom⟩
      · exact .inl hx
      · exact .inr ⟨List.mem_cons_self, hi, hfrom⟩
    · refine .inr ⟨List.mem_cons_of_mem _ hk, hi, ?_⟩
      rcases reconcile_timestamp hkey hy with hy | ⟨rfl, -, j', hj', y', hy', hts'⟩
      · exact ⟨j, hj, y, hy, hts⟩
      · exact ⟨j', hj', y', hy', hts.trans hts'⟩

end pass

end Replication.Simulation
