import Replication.Conflict.Resolver
import Replication.Library.Newest

/-!
# Simulation · AntiEntropy: the reconciliation pass

`internal/simulation/antientropy.go`. A pass compares the visible contents of the online replicas,
and writes the newest version of every key that differs over the older ones.
-/

set_option linter.unusedSectionVars false

namespace Replication.Simulation

open Storage List

variable {I K V : Type} [LinearOrder I] [DecidableEq K] {b : KVEntry I K V} {i : I} {order : List I}

/-- What a replica shows under a key: nothing, a tombstone, or a value. Source: `antientropy.go`
`mapRepr`. -/
def mapRepr (store : Store I K V) (key : K) : Option (Option V) :=
  (store.getRaw key).map fun raw => if raw.tombstone then none else some raw.value

/-- Two online replicas show different contents under a key. -/
def Divergent (stores : I → Store I K V) (online : List I) (key : K) : Prop :=
  ∃ i ∈ online, ∃ j ∈ online, mapRepr (stores i) key ≠ mapRepr (stores j) key

instance [DecidableEq V] (stores : I → Store I K V) (online : List I) (key : K) :
    Decidable (Divergent stores online key) :=
  inferInstanceAs (Decidable (∃ i ∈ online, ∃ j ∈ online,
    mapRepr (stores i) key ≠ mapRepr (stores j) key))

/-- The comparison of `newestEntry` and of the staleness test. -/
def beats (a b : KVEntry I K V) : Bool :=
  b.timestamp < a.timestamp ∨ a.timestamp = b.timestamp ∧ b.nodeID < a.nodeID

/-- Keep the better of the best version so far and the next one. -/
def better (best : Option (KVEntry I K V)) : Option (KVEntry I K V) → Option (KVEntry I K V)
  | none => best
  | some raw =>
    match best with
    | none => some raw
    | some b => if beats raw b then some raw else some b

/-- The newest version of a key among the replicas, met in this order. Source: `antientropy.go`
`newestEntry`. -/
def newestEntry (stores : I → Store I K V) (order : List I) (key : K) : Option (KVEntry I K V) :=
  order.foldl (fun best i => better best ((stores i).getRaw key)) none

/-- Whether a replica needs the newest version. -/
def stale (raw : Option (KVEntry I K V)) (best : KVEntry I K V) : Bool :=
  match raw with
  | none => true
  | some raw => beats best raw

/-- Write the newest version of a key over the older ones. The loop does the same at every online
replica, so it is described at one. -/
def reconcile (stores : I → Store I K V) (order : List I) (key : K) : I → Store I K V :=
  match newestEntry stores order key with
  | none => stores
  | some best => fun i =>
    if i ∈ order ∧ stale ((stores i).getRaw key) best = true then (stores i).set best
    else stores i

/-- Reconcile the divergent keys one after the other, unless fewer than two replicas are online.
Source: `antientropy.go` `RunAntiEntropy`. -/
def runAntiEntropy (stores : I → Store I K V) (online : List I) (order : K → List I)
    (divergent : List K) : I → Store I K V :=
  if online.length < 2 then stores
  else divergent.foldl (fun stores key => reconcile stores (order key) key) stores

/-- The copies of a key that reconciling it repairs. -/
def repaired (stores : I → Store I K V) (order : List I) (key : K) : ℕ :=
  match newestEntry stores order key with
  | none => 0
  | some best => order.countP fun i => stale ((stores i).getRaw key) best

/-- The count that `RunAntiEntropy` returns. -/
def reconciledCount (stores : I → Store I K V) (online : List I) (order : K → List I)
    (divergent : List K) : ℕ :=
  if online.length < 2 then 0
  else
    (divergent.foldl (fun (acc : (I → Store I K V) × ℕ) key =>
      (reconcile acc.1 (order key) key, acc.2 + repaired acc.1 (order key) key)) (stores, 0)).2

/-! ### The newest version -/

section newest

variable {stores : I → Store I K V} {key : K}

lemma beats_iff {a : KVEntry I K V} : beats a b = true ↔ b.stamp < a.stamp := by
  rw [beats, decide_eq_true_eq, KVEntry.stamp_lt_iff, eq_comm (a := a.timestamp)]

/-- A version that no replica of the list beats. -/
def Unbeaten (stores : I → Store I K V) (order : List I) (key : K) (b : KVEntry I K V) : Prop :=
  ∀ i ∈ order, ∀ e, (stores i).data key = some e → e.stamp ≤ b.stamp

/-- The versions of a key, in the order in which they are met. -/
def versions (stores : I → Store I K V) (order : List I) (key : K) : List (KVEntry I K V) :=
  order.filterMap fun i => (stores i).data key

lemma mem_versions {e : KVEntry I K V} :
    e ∈ versions stores order key ↔ ∃ i ∈ order, (stores i).data key = some e :=
  mem_filterMap

lemma versions_cons (hi : (stores i).data key = some b) (order : List I) :
    versions stores (i :: order) key = b :: versions stores order key :=
  filterMap_cons_some (f := fun i => (stores i).data key) hi

lemma versions_append (order order' : List I) : versions stores (order ++ order') key =
    versions stores order key ++ versions stores order' key :=
  filterMap_append

/-- The newest entry has the greatest stamp. -/
lemma newestEntry_eq_argmax (order : List I) : newestEntry stores order key =
    (versions stores order key).argmax KVEntry.stamp := by
  induction order using List.reverseRecOn with
  | nil => rfl
  | append_singleton order i ih =>
    have hstep : newestEntry stores (order ++ [i]) key =
        better (newestEntry stores order key) ((stores i).data key) := foldl_append
    rw [hstep, ih, versions_append]
    cases hraw : (stores i).data key with
    | none => simp [versions, hraw, better]
    | some raw =>
      have hlast : versions stores [i] key = [raw] := versions_cons hraw []
      rw [hlast, argmax_concat]
      cases (versions stores order key).argmax KVEntry.stamp with
      | none => rfl
      | some => simp only [better, beats_iff]

/-- **The newest version** is held by a replica and unbeaten. -/
theorem newestEntry_spec (h : newestEntry stores order key = some b) :
    (∃ i ∈ order, (stores i).data key = some b) ∧ Unbeaten stores order key b := by
  rw [newestEntry_eq_argmax] at h
  refine ⟨mem_versions.mp (argmax_mem h), fun i hi e he => ?_⟩
  exact le_of_mem_argmax (mem_versions.mpr ⟨i, hi, he⟩) h

lemma newestEntry_of_head (hi : (stores i).data key = some b)
    (hunb : Unbeaten stores order key b) : newestEntry stores (i :: order) key = some b := by
  rw [newestEntry_eq_argmax, versions_cons hi, argmax_cons]
  cases h : (versions stores order key).argmax KVEntry.stamp with
  | none => rfl
  | some c =>
    obtain ⟨j, hj, hc⟩ := mem_versions.mp (argmax_mem h)
    exact if_neg (hunb j hj c hc).not_gt

lemma exists_newestEntry {e : KVEntry I K V} (hi : i ∈ order) (he : (stores i).data key = some e) :
    ∃ b, newestEntry stores order key = some b := by
  rw [newestEntry_eq_argmax, ← Option.ne_none_iff_exists']
  intro hnone
  rw [argmax_eq_none] at hnone
  have hmem := mem_versions.mpr ⟨i, hi, he⟩
  simp [hnone] at hmem

lemma newestEntry_congr {stores' : I → Store I K V}
    (h : ∀ i, (stores' i).data key = (stores i).data key) :
    newestEntry stores' order key = newestEntry stores order key := by
  unfold newestEntry Store.getRaw
  simp only [h]

end newest

/-! ### The pass -/

section pass

variable {stores : I → Store I K V}

/-- Every entry is stored under its own key. -/
def KeyEq (stores : I → Store I K V) : Prop :=
  ∀ i key e, (stores i).data key = some e → e.key = key

/-- What a replica holds under a key after it is reconciled, up to the write counter. -/
def reconciled (stores : I → Store I K V) (order : List I) (key : K) (i : I) :
    Option (KVEntry I K V) :=
  match newestEntry stores order key with
  | none => (stores i).contents key
  | some best =>
    if i ∈ order ∧ stale ((stores i).getRaw key) best = true then some best.content
    else (stores i).contents key

/-- What a store holds after a reconciliation. -/
lemma reconcile_contents (hkey : KeyEq stores) (order : List I) (key : K) (i : I) :
    (reconcile stores order key i).contents key = reconciled stores order key i := by
  unfold reconcile reconciled
  cases hbest : newestEntry stores order key with
  | none => rfl
  | some best =>
    obtain ⟨⟨j, -, hj⟩, -⟩ := newestEntry_spec hbest
    dsimp only
    split_ifs
    · rw [contents_set, hkey j key best hj, Function.update_self]
    · rfl

lemma reconciled_congr {stores' : I → Store I K V} {key : K}
    (h : ∀ i, (stores' i).data key = (stores i).data key) (i : I) :
    reconciled stores' order key i = reconciled stores order key i := by
  unfold reconciled
  rw [newestEntry_congr h, Store.contents_eq_map, Store.contents_eq_map, Store.getRaw, Store.getRaw,
    h i]

/-- Reconciling a key leaves a replica as it is, or writes a version of the key to it. -/
lemma reconcile_cases (hkey : KeyEq stores) (order : List I) (key : K) (i : I) :
    reconcile stores order key i = stores i ∨ i ∈ order ∧
      ∃ j ∈ order, ∃ best, (stores j).data key = some best ∧ best.key = key ∧
        reconcile stores order key i = (stores i).set best := by
  unfold reconcile
  cases hbest : newestEntry stores order key with
  | none => exact .inl rfl
  | some best =>
    obtain ⟨⟨j, hj, hdata⟩, -⟩ := newestEntry_spec hbest
    dsimp only
    split_ifs with h
    · exact .inr ⟨h.1, j, hj, best, hdata, hkey j key best hdata, rfl⟩
    · exact .inl rfl

lemma reconcile_data_of_ne (hkey : KeyEq stores) (order : List I) {key k : K} (hk : k ≠ key)
    (i : I) : (reconcile stores order key i).data k = (stores i).data k := by
  rcases reconcile_cases hkey order key i with h | ⟨-, j, -, best, -, rfl, h⟩
  · rw [h]
  · rw [h]
    exact Function.update_of_ne hk _ _

lemma keyEq_reconcile (hkey : KeyEq stores) (order : List I) (key : K) :
    KeyEq (reconcile stores order key) := by
  intro i
  rcases reconcile_cases hkey order key i with h | ⟨-, j, -, best, -, -, h⟩
  · rw [h]
    exact hkey i
  · rw [h]
    exact Store.keyed_set (hkey i) best

/-- **A pass changes** the versions of the divergent keys at the replicas that were met. -/
theorem runAntiEntropy_data (hkey : KeyEq stores) (online : List I) (order : K → List I)
    (ks : List K) : KeyEq (runAntiEntropy stores online order ks) ∧
      ∀ i k, ¬ (k ∈ ks ∧ i ∈ order k) →
        (runAntiEntropy stores online order ks i).data k = (stores i).data k := by
  unfold runAntiEntropy
  split_ifs
  · exact ⟨hkey, fun _ _ _ => rfl⟩
  induction ks generalizing stores with
  | nil => exact ⟨hkey, fun _ _ _ => rfl⟩
  | cons key ks ih =>
    obtain ⟨hkey', hdata⟩ := ih (keyEq_reconcile hkey (order key) key)
    refine ⟨hkey', fun i k hk => ?_⟩
    rw [foldl_cons, hdata i k fun h => hk ⟨mem_cons_of_mem _ h.1, h.2⟩]
    by_cases heq : k = key
    · subst heq
      rw [(reconcile_cases hkey (order k) k i).resolve_right fun h => hk ⟨mem_cons_self, h.1⟩]
    · exact reconcile_data_of_ne hkey (order key) heq i

lemma foldl_reconcile_contents (hkey : KeyEq stores) (order : K → List I) {ks : List K}
    (hnd : ks.Nodup) (i : I) (k : K) :
    ((ks.foldl (fun stores key => reconcile stores (order key) key) stores) i).contents k =
      if k ∈ ks then reconciled stores (order k) k i else (stores i).contents k := by
  induction ks generalizing stores with
  | nil => rw [foldl_nil, if_neg not_mem_nil]
  | cons key ks ih =>
    obtain ⟨hnotin, hnd'⟩ := nodup_cons.mp hnd
    rw [foldl_cons, ih (keyEq_reconcile hkey (order key) key) hnd']
    by_cases hk : k = key
    · subst hk
      rw [if_neg hnotin, if_pos mem_cons_self, reconcile_contents hkey]
    -- the first key leaves the versions of `k` alone
    have hdata := reconcile_data_of_ne hkey (order key) hk
    rw [reconciled_congr hdata, Store.contents_eq_map, hdata, ← Store.contents_eq_map]
    simp only [mem_cons, hk, false_or]

/-- **What the pass leaves** under a key. -/
theorem runAntiEntropy_contents (hkey : KeyEq stores) {online : List I} (hlen : 2 ≤ online.length)
    (order : K → List I) {ks : List K} (hnd : ks.Nodup) (i : I) (k : K) :
    (runAntiEntropy stores online order ks i).contents k =
      if k ∈ ks then reconciled stores (order k) k i else (stores i).contents k := by
  unfold runAntiEntropy
  rw [if_neg (by omega)]
  exact foldl_reconcile_contents hkey order hnd i k

end pass

end Replication.Simulation
