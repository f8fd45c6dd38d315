import Replication.Simulation.Trees

/-!
# Simulation · Repair: what an anti-entropy pass achieves

`RunAntiEntropy` finds the keys to repair by comparing what the replicas show with what one of them
shows, and repairs them by their stamps. `CheckConvergence` compares again.
-/

set_option linter.unusedSectionVars false

namespace Replication.Simulation

open Storage

variable {I K V : Type} [LinearOrder I] [DecidableEq K]

/-! ### The reports -/

/-- What the convergence check compares: `<absent>`, `<tombstone>`, or the encoded value. -/
inductive Shown (V : Type) where
  | absent
  | tombstone
  | value (v : V)
  deriving DecidableEq

/-- A replica's view of a key. Source: `convergence.go` `nodeValueRepr`. -/
def nodeValueRepr (store : Store I K V) (key : K) : Shown V :=
  match store.getRaw key with
  | none => .absent
  | some raw => if raw.tombstone then .tombstone else .value raw.value

/-- A key on which replicas differ. Source: `convergence.go` `KeyDivergence`. -/
structure KeyDivergence (I K V : Type) where
  key : K
  values : List (I × Shown V)

/-- Source: `convergence.go` `ConvergenceReport`. -/
structure ConvergenceReport (I K V : Type) where
  converged : Bool
  keys : ℕ
  diverged : List (KeyDivergence I K V)
  /-- Set if there is nothing to compare. -/
  note : String

/-- Whether the replicas differ from the first of them. -/
def differs [DecidableEq V] (stores : I → Store I K V) (key : K) : List I → Bool
  | [] => false
  | i :: is => is.any fun j => nodeValueRepr (stores j) key ≠ nodeValueRepr (stores i) key

/-- Compare the online replicas, key by key. Source: `convergence.go` `CheckConvergence`. -/
def checkConvergence [DecidableEq V] (stores : I → Store I K V) (online : List I) (keys : List K)
    (order : K → List I) : ConvergenceReport I K V :=
  if online.length < 2 then
    ⟨true, keys.length, [],
      "fewer than two online replicas; convergence is trivially satisfied"⟩
  else
    let diverged := keys.filter fun key => differs stores key (order key)
    { converged := diverged.isEmpty
      keys := keys.length
      diverged := diverged.map fun key =>
        ⟨key, (order key).map fun i => (i, nodeValueRepr (stores i) key)⟩
      note := "" }

/-- What the loops of a pass meet, in their order. -/
structure Iterations (I K : Type) where
  /-- The keys of the online replicas. -/
  keys : List K
  /-- The replica whose tree comes first, the reference of the diffs. -/
  ref : I
  /-- The keys that the diffs return. -/
  divergent : List K
  /-- The online replicas, when a key is reconciled. -/
  order : K → List I
  /-- The keys of the online replicas, when their convergence is checked. -/
  checked : List K
  /-- The online replicas, when a key is checked. -/
  checkOrder : K → List I

/-- Source: `antientropy.go` `AntiEntropyReport`. -/
structure AntiEntropyReport (K : Type) where
  totalKeys : ℕ
  divergentKeys : List K
  reconciled : ℕ
  /-- The replicas agree after the pass. -/
  convergedAfter : Bool

/-- The report of a pass. Source: `antientropy.go` `RunAntiEntropy`. -/
def antiEntropyReport [DecidableEq V] (stores : I → Store I K V) (online : List I)
    (it : Iterations I K) : AntiEntropyReport K :=
  if online.length < 2 then ⟨0, [], 0, true⟩
  else
    { totalKeys := it.keys.length
      divergentKeys := it.divergent
      reconciled := reconciledCount stores online it.order it.divergent
      convergedAfter := (checkConvergence (runAntiEntropy stores online it.order it.divergent)
        online it.checked it.checkOrder).converged }

/-- The list holds every key of the online replicas once. -/
def Enumerates (stores : I → Store I K V) (online : List I) (keys : List K) : Prop :=
  keys.Nodup ∧ ∀ key, key ∈ keys ↔ ∃ i ∈ online, (stores i).getRaw key ≠ none

/-- The loops of a pass over these replicas, with what the diff of two trees returns. -/
structure Iterations.Over (it : Iterations I K) (diff : I → I → List K)
    (stores : I → Store I K V) (online : List I) : Prop where
  keys : Enumerates stores online it.keys
  found : Finds diff online it.ref it.divergent
  order : ∀ key, (it.order key).Perm online
  checked : Enumerates (runAntiEntropy stores online it.order it.divergent) online it.checked
  checkOrder : ∀ key, (it.checkOrder key).Perm online

/-! ### What is compared -/

section compared

variable {stores : I → Store I K V} {online : List I}

lemma nodeValueRepr_eq_iff {s s' : Store I K V} {key : K} :
    nodeValueRepr s key = nodeValueRepr s' key ↔ mapRepr s key = mapRepr s' key := by
  unfold nodeValueRepr mapRepr
  cases s.getRaw key with
  | none =>
    cases s'.getRaw key with
    | none => simp
    | some e' => cases h : e'.tombstone <;> simp [h]
  | some e =>
    cases s'.getRaw key with
    | none => cases h : e.tombstone <;> simp [h]
    | some e' => cases h : e.tombstone <;> cases h' : e'.tombstone <;> simp [h, h']

lemma mapRepr_eq_contents (s : Store I K V) (key : K) : mapRepr s key =
    (s.contents key).map fun e => if e.tombstone then none else some e.value := by
  rw [Store.contents_eq_map, Option.map_map]
  rfl

lemma checkConvergence_of_agree [DecidableEq V] {keys : List K} {order : K → List I}
    (horder : ∀ key, (order key).Perm online) (hagree : ∀ key, ¬Divergent stores online key) :
    (checkConvergence stores online keys order).converged = true := by
  unfold checkConvergence
  split_ifs
  · rfl
  have hsame : ∀ key, differs stores key (order key) = false := by
    intro key
    cases hl : order key with
    | nil => rfl
    | cons i is =>
      have hmem : ∀ j ∈ i :: is, j ∈ online := fun j hj =>
        (horder key).mem_iff.mp (hl ▸ hj)
      simp only [differs, List.any_eq_false, decide_eq_true_eq, not_not]
      intro j hj
      rw [nodeValueRepr_eq_iff]
      by_contra hne
      exact hagree key ⟨j, hmem j (List.mem_cons_of_mem i hj), i, hmem i List.mem_cons_self, hne⟩
  simp [hsame]

end compared

/-! ### After the pass -/

section after

variable {stores : I → Store I K V} {online order : List I} {key : K}

/-- Equal stamps of versions of a key mean equal versions. -/
def StampsIdentify (stores : I → Store I K V) (online : List I) : Prop :=
  ∀ key, ∀ i ∈ online, ∀ j ∈ online, ∀ e e', (stores i).getRaw key = some e →
    (stores j).getRaw key = some e' → e.timestamp = e'.timestamp → e.nodeID = e'.nodeID →
      e.content = e'.content

lemma reconciled_eq_newest (hstamps : StampsIdentify stores online) (horder : order.Perm online)
    {best : KVEntry I K V} (hbest : newestEntry stores order key = some best) {i : I}
    (hi : i ∈ online) : reconciled stores order key i = some best.content := by
  obtain ⟨⟨j, hj, hbj⟩, hunb⟩ := newestEntry_spec hbest
  unfold reconciled
  rw [hbest]
  dsimp only
  have hi' : i ∈ order := horder.mem_iff.mpr hi
  split_ifs with h
  · rfl
  -- a version that is not beaten has the same stamp
  have hfresh : stale ((stores i).getRaw key) best ≠ true := fun hstale => h ⟨hi', hstale⟩
  cases hraw : (stores i).getRaw key with
  | none =>
    rw [hraw] at hfresh
    exact absurd rfl hfresh
  | some raw =>
    rw [hraw] at hfresh
    have hle : best.stamp ≤ raw.stamp := not_lt.mp fun hlt => hfresh (beats_iff.mpr hlt)
    have heq : raw.stamp = best.stamp := le_antisymm (hunb i hi' raw hraw) hle
    obtain ⟨hts, hnode⟩ := KVEntry.stamp_eq_iff.mp heq
    have hcontent := hstamps key i hi j (horder.mem_iff.mp hj) raw best hraw hbj hts hnode
    rw [Store.contents_eq_map, show (stores i).data key = some raw from hraw, Option.map_some,
      hcontent]

/-- Replicas agree on a reconciled key. -/
lemma reconciled_agree (hstamps : StampsIdentify stores online) (horder : order.Perm online)
    {i j : I} (hi : i ∈ online) (hj : j ∈ online) :
    reconciled stores order key i = reconciled stores order key j := by
  cases hbest : newestEntry stores order key with
  | some =>
    rw [reconciled_eq_newest hstamps horder hbest hi, reconciled_eq_newest hstamps horder hbest hj]
  | none =>
    -- no replica has the key
    have habsent : ∀ x ∈ online, (stores x).contents key = none := by
      intro x hx
      rw [Store.contents_eq_map, Option.map_eq_none_iff]
      by_contra hne
      obtain ⟨e, he⟩ := Option.ne_none_iff_exists'.mp hne
      obtain ⟨b, hb⟩ := exists_newestEntry (horder.mem_iff.mpr hx) he
      rw [hbest] at hb
      exact absurd hb (Option.some_ne_none b).symm
    unfold reconciled
    rw [hbest, habsent i hi, habsent j hj]

/-- **No version gets older**, and none disappears. -/
theorem le_reconciled {e : KVEntry I K V} {i : I} (he : (stores i).contents key = some e) :
    ∃ e', reconciled stores order key i = some e' ∧ e.stamp ≤ e'.stamp := by
  unfold reconciled
  cases hbest : newestEntry stores order key with
  | none => exact ⟨e, he, le_rfl⟩
  | some best =>
    dsimp only
    split_ifs with h
    · refine ⟨best.content, rfl, ?_⟩
      rw [Store.contents_eq_map] at he
      obtain ⟨raw, hraw, rfl⟩ := Option.map_eq_some_iff.mp he
      have hstale := h.2
      rw [show (stores i).getRaw key = some raw from hraw] at hstale
      rw [stamp_content, stamp_content]
      exact (beats_iff.mp hstale).le
    · exact ⟨e, he, le_rfl⟩

/-- **After a pass the online replicas show the same**, if the keys it reconciles are those on which
they differ. -/
theorem mapRepr_runAntiEntropy (hkey : KeyEq stores) (hlen : 2 ≤ online.length)
    (hstamps : StampsIdentify stores online) {order : K → List I}
    (horder : ∀ key, (order key).Perm online) {diff : I → I → List K} {ref : I}
    {divergent : List K} (hfound : Finds diff online ref divergent)
    (hexact : ExactDiff diff stores online) (key : K) {i j : I} (hi : i ∈ online)
    (hj : j ∈ online) : mapRepr (runAntiEntropy stores online order divergent i) key =
      mapRepr (runAntiEntropy stores online order divergent j) key := by
  rw [mapRepr_eq_contents, mapRepr_eq_contents,
    runAntiEntropy_contents hkey hlen order hfound.nodup,
    runAntiEntropy_contents hkey hlen order hfound.nodup]
  split_ifs with hmem
  · rw [reconciled_agree hstamps (horder key) hi hj]
  · rw [← mapRepr_eq_contents, ← mapRepr_eq_contents]
    by_contra hne
    exact hmem ((hfound.mem_iff_divergent hexact key).mpr ⟨i, hi, j, hj, hne⟩)

end after

/-- **An anti-entropy pass repairs the online replicas.** Whatever the orders of its loops and the
reference, for at least two online replicas whose stamps identify versions, and with a comparison of
replicas that returns the keys on which they differ: afterwards they show the same under every key,
the report says so, no version got older or disappeared, and an immediate second pass with such a
comparison repairs nothing. -/
theorem antiEntropy_repairs [DecidableEq V] [Inhabited V] {stores : I → Store I K V}
    {online : List I} (hlen : 2 ≤ online.length) (hreach : ∀ i, (stores i).Reachable)
    (hstamps : StampsIdentify stores online) {diff : I → I → List K}
    (hexact : ExactDiff diff stores online) {it : Iterations I K}
    (hit : it.Over diff stores online) :
    (∀ key, ∀ i ∈ online, ∀ j ∈ online,
        mapRepr (runAntiEntropy stores online it.order it.divergent i) key =
          mapRepr (runAntiEntropy stores online it.order it.divergent j) key) ∧
      (antiEntropyReport stores online it).convergedAfter = true ∧
      (∀ i key e, (stores i).getRaw key = some e → ∃ e',
        (runAntiEntropy stores online it.order it.divergent i).getRaw key = some e' ∧
          (e.timestamp < e'.timestamp ∨ e.timestamp = e'.timestamp ∧ e.nodeID ≤ e'.nodeID)) ∧
      ∀ (diff' : I → I → List K) (it' : Iterations I K),
        ExactDiff diff' (runAntiEntropy stores online it.order it.divergent) online →
        it'.Over diff' (runAntiEntropy stores online it.order it.divergent) online →
        (antiEntropyReport (runAntiEntropy stores online it.order it.divergent) online
          it').reconciled = 0 := by
  have hkey : KeyEq stores := fun i => (hreach i).key_eq
  have hafter := runAntiEntropy_contents hkey hlen it.order hit.found.nodup
  have hagree := fun key i hi j hj =>
    mapRepr_runAntiEntropy hkey hlen hstamps hit.order hit.found hexact key (i := i) (j := j) hi hj
  generalize hstores' : runAntiEntropy stores online it.order it.divergent = stores'
    at hafter hagree ⊢
  have hnot : ∀ key, ¬Divergent stores' online key := fun key ⟨i, hi, j, hj, hne⟩ =>
    hne (hagree key i hi j hj)
  refine ⟨hagree, ?_, fun i key e he => ?_, fun diff' it' hexact' hit' => ?_⟩
  · unfold antiEntropyReport
    rw [if_neg (not_lt.mpr hlen), hstores']
    exact checkConvergence_of_agree hit.checkOrder hnot
  · have hcontents : (stores i).contents key = some e.content := by
      rw [Store.contents_eq_map, show (stores i).data key = some e from he, Option.map_some]
    have hlater : ∃ e', (stores' i).contents key = some e' ∧ e.content.stamp ≤ e'.stamp := by
      rw [hafter]
      split_ifs
      · exact le_reconciled hcontents
      · exact ⟨e.content, hcontents, le_rfl⟩
    obtain ⟨c, hc, hle⟩ := hlater
    rw [Store.contents_eq_map] at hc
    obtain ⟨e', he', rfl⟩ := Option.map_eq_some_iff.mp hc
    rw [stamp_content, stamp_content] at hle
    exact ⟨e', he', KVEntry.stamp_le_iff.mp hle⟩
  · -- the replicas agree, so that the second pass finds no key
    have hnil : it'.divergent = [] := List.eq_nil_iff_forall_not_mem.mpr fun key hmem =>
      hnot key ((hit'.found.mem_iff_divergent hexact' key).mp hmem)
    unfold antiEntropyReport
    rw [if_neg (not_lt.mpr hlen), hnil]
    unfold reconciledCount
    rw [if_neg (not_lt.mpr hlen)]
    rfl

/-- Each of two replicas has its own version of a key, with one timestamp. -/
private def ownWrite (i : Bool) : Store Bool String ℕ :=
  Store.new.set ⟨"k", if i then 1 else 2, .single i 1, 7, i, false, 0⟩

/-- A pass over the two replicas. -/
private def bothReplicas : Iterations Bool String where
  keys := ["k"]
  ref := true
  divergent := ["k"]
  order := fun _ => [true, false]
  checked := ["k"]
  checkOrder := fun _ => [false, true]

/-- The bytes 1 and 2 in base64. -/
private def byteText (n : ℕ) : String := if n = 1 then "AQ==" else "Ag=="

/-- The diff of the trees of the two replicas. -/
private def ownDiff : Bool → Bool → List String :=
  treeDiff (AntiEntropy.oneDigest "k=AQ==") byteText ownWrite fun _ => ["k"]

private lemma getRaw_ownWrite {i : Bool} {key : String} :
    (ownWrite i).getRaw key ≠ none ↔ key = "k" := by
  unfold ownWrite Store.getRaw Store.set
  by_cases hk : key = "k" <;> simp [Function.update_apply, hk, Store.new]

private lemma mem_ownDiff {i j : Bool} (hij : i ≠ j) (key : String) :
    key ∈ ownDiff i j ↔ key = "k" := by
  refine mem_treeDiff_one rfl rfl (by decide) ?_ key
  cases i <;> cases j
  · exact absurd rfl hij
  · decide +kernel
  · decide +kernel
  · exact absurd rfl hij

private lemma exact_ownDiff : ExactDiff ownDiff ownWrite [false, true] := by
  intro i _ j _ hij key
  rw [mem_ownDiff hij]
  by_cases hk : key = "k"
  · subst hk
    refine iff_of_true rfl ?_
    cases i <;> cases j
    · exact absurd rfl hij
    · decide +kernel
    · decide +kernel
    · exact absurd rfl hij
  · have hnone : ∀ n, (ownWrite n).getRaw key = none := fun n =>
      not_not.mp (mt getRaw_ownWrite.mp hk)
    refine iff_of_false hk (not_not.mpr ?_)
    unfold mapRepr
    rw [hnone, hnone]

private lemma over_ownWrite : bothReplicas.Over ownDiff ownWrite [false, true] where
  keys := by
    refine ⟨by decide, fun key => ?_⟩
    simp [getRaw_ownWrite, bothReplicas]
  found := by
    refine ⟨by decide, by decide, fun key => ?_⟩
    simp [mem_ownDiff, bothReplicas]
  order _ := List.Perm.swap _ _ _
  checked := by
    refine ⟨by decide, fun key => ?_⟩
    by_cases hk : key = "k"
    · subst hk
      decide +kernel
    have hkeyEq : KeyEq ownWrite := fun i => (Store.Reachable.set _ .new).key_eq
    have hdata := fun i => (runAntiEntropy_data hkeyEq [false, true] bothReplicas.order
      bothReplicas.divergent).2 i key fun h => hk (List.mem_singleton.mp h.1)
    have hraw : ∀ i, (runAntiEntropy ownWrite [false, true] bothReplicas.order
        bothReplicas.divergent i).getRaw key = (ownWrite i).getRaw key := hdata
    simp only [hraw, getRaw_ownWrite]
    simp [bothReplicas]
  checkOrder _ := List.Perm.refl _

/-- Two versions with one timestamp: the replicas agree on that of the higher node. -/
theorem antiEntropy_repairs_tie : ((ownWrite false).getRaw "k").map (·.nodeID) = some false ∧
    mapRepr (runAntiEntropy ownWrite [false, true] bothReplicas.order bothReplicas.divergent false)
        "k" =
      mapRepr (runAntiEntropy ownWrite [false, true] bothReplicas.order bothReplicas.divergent true)
        "k" ∧
    (antiEntropyReport ownWrite [false, true] bothReplicas).convergedAfter = true := by
  have hstamps : StampsIdentify ownWrite [false, true] := by
    intro key i _ j _ e e' he he' _ hnode
    obtain rfl := getRaw_ownWrite.mp (he ▸ Option.some_ne_none e)
    cases he
    cases he'
    obtain rfl : i = j := hnode
    rfl
  have h := antiEntropy_repairs (by decide) (fun i => .set _ .new) hstamps exact_ownDiff
    over_ownWrite
  exact ⟨rfl, h.1 "k" false (by decide) true (by decide), h.2.1⟩

end Replication.Simulation
