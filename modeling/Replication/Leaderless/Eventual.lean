import Replication.Leaderless.Freshness
import Replication.Leaderless.Levels
import Replication.Simulation.Repair

/-!
# Leaderless · Eventual: a leaderless cluster after an anti-entropy pass

Writes that miss a replica, lost messages and lost hints leave replicas apart. What a pass needs to
bring them together is that stamps identify versions and that stores file versions under their keys;
a cluster keeps both in every run (`Identified`).

The pass looks at the keys that the Merkle diffs return. That these are the keys on which replicas
differ is not a fact but the assumption `ToldApart`: the digest does not collide, the replicas agree
under the empty key, and different contents have different leaf texts.
-/

set_option linter.unusedSectionVars false

namespace Replication.Leaderless

open Storage Library Simulation
open HashRing (Hashing)

variable {I K V : Type} [LinearOrder I] [DecidableEq K] [Inhabited V] [DecidableEq V]

/-- The stores that a pass reads. -/
def storesOf (s : Cluster I K V) (n : I) : Store I K V := (s.nodes n).store

/-- Stores hold entries of client operations under their keys, and stamps identify them. -/
structure Identified (s : Cluster I K V) : Prop where
  id : ∀ n, (s.nodes n).id = n
  mode : ∀ n, (s.nodes n).repairMode ≠ .digest
  known : s.All s.Known
  stamps : StampInv s
  reachable : ∀ n, (s.nodes n).store.Reachable

/-- An apply is a `set` or nothing. -/
lemma reachable_applyWrite {n : LeaderlessNode I K V} (h : n.store.Reachable) (e : KVEntry I K V)
    (t : ℤ) : (n.applyWrite e t).store.Reachable := by
  unfold LeaderlessNode.applyWrite
  dsimp only
  split
  · exact .set e h
  · split_ifs
    · exact .set e h
    · exact h

/-- Every step keeps stamps identifying. -/
lemma identified_step (H : Hashing I K) (s : Cluster I K V) (a : Action I K V)
    (hrange : s.stampsInRange a = true) (h : Identified s) : Identified (s.step H a) := by
  have hmove := move_step H s a
  have hconfig := fun n => (hmove.nodeStep n).config
  refine ⟨fun n => (congrArg Config.id (hconfig n)).trans (h.id n), fun n hdigest => h.mode n ?_,
    known_step h.mode h.known, stampInv_move hmove h.id hrange h.stamps, fun n => ?_⟩
  · exact (congrArg Config.repairMode (hconfig n)).symm.trans hdigest
  · rcases (hmove.nodeStep n).data with ⟨hstore, -⟩ | ⟨e, t, -, hstore, -⟩ | ⟨t, -, hstore, -⟩
    · exact hstore ▸ h.reachable n
    · exact hstore ▸ reachable_applyWrite (h.reachable n) e t
    · exact hstore ▸ h.reachable n

/-- What a pass needs to know about stamps. -/
lemma Identified.stampsIdentify {s : Cluster I K V} (h : Identified s) (online : List I) :
    StampsIdentify (storesOf s) online := by
  intro key i _ j _ e e' he he' hts hnode
  refine h.stamps.content_eq ((h.known.nodes i).store key e he) ((h.known.nodes j).store key e' he')
    ?_
  rw [stamp_content, stamp_content]
  exact KVEntry.stamp_eq_iff.mpr ⟨hts, hnode⟩

/-- **A pass brings a leaderless cluster together.** After any run of reads, writes and deletes,
with any messages and hints lost, delayed or left, any pauses and clock skews, and clocks in range
where they stamp: if the trees tell the online replicas apart, an anti-entropy pass makes them all
show the same under every key, whatever its reference and the orders of its loops. -/
theorem leaderless_converges (H : Hashing I String) (members : List I) (q : QuorumConfig)
    (mode : I → ReadRepairMode) (hmode : ∀ n, mode n ≠ .digest) (as : List (Action I String V))
    (hrange : Along (Cluster.step H) (fun s a => s.stampsInRange a = true)
      (Cluster.create H members q mode) as)
    {online : List I} (hlen : 2 ≤ online.length) (D : AntiEntropy.Digest) (enc : Encoding V)
    (keys : I → List String) :
    let stores := storesOf (run (Cluster.step H) (Cluster.create H members q mode) as)
    (∀ i ∈ online, Lists (stores i) (keys i)) →
    (∀ i ∈ online, ∀ j ∈ online, i ≠ j → ToldApart D (mapText enc.text (stores i) (keys i))
      (mapText enc.text (stores j) (keys j))) →
    ∀ ref divergent, Finds (treeDiff D enc.text stores keys) online ref divergent →
    ∀ order : String → List I, (∀ key, (order key).Perm online) →
    ∀ key, ∀ i ∈ online, ∀ j ∈ online,
      mapRepr (runAntiEntropy stores online order divergent i) key =
        mapRepr (runAntiEntropy stores online order divergent j) key := by
  intro stores hkeys happart ref divergent hfound order horder key i hi j hj
  have hinv := run_invariant Identified (identified_step H) hrange
    ⟨fun _ => rfl, hmode, (runInv_create H members q mode).known,
      (runInv_create H members q mode).stamps, fun _ => .new⟩
  exact mapRepr_runAntiEntropy (fun n => (hinv.reachable n).key_eq) hlen
    (hinv.stampsIdentify online) horder hfound (exactDiff_treeDiff D enc hkeys happart) key hi hj

/-- A write whose message is lost. -/
private def unsentWrite : List (Action Bool String Bool) :=
  [.write true "k" true 1000000, .advance 0 (.go 1000000 []), .advance 0 (.go 1000000 []),
    .drop 0]

/-- The replicas after the write. -/
private def apartStores : Bool → Store Bool String Bool :=
  storesOf (run (Cluster.step alternatingTokens)
    (Cluster.create alternatingTokens [false, true] ⟨2, 1, 2⟩ fun _ => .async) unsentWrite)

/-- The keys of the replicas. -/
private def apartKeys (n : Bool) : List String := if n then ["k"] else []

/-- Bytes 0 and 1 in base64. -/
private def bitEncoding : Encoding Bool where
  text b := if b then "AQ==" else "AA=="
  injective := by decide
  ne_tomb := by decide

/-- The keys are those of the stores. -/
private lemma lists_apart (n : Bool) : Lists (apartStores n) (apartKeys n) := by
  intro key
  cases n with
  | false => exact iff_of_false List.not_mem_nil fun h => h rfl
  | true =>
    refine List.mem_singleton.trans ⟨fun hk => ?_, fun h => ?_⟩
    · subst hk
      decide +kernel
    · by_contra hk
      exact h (Function.update_of_ne hk _ _)

/-- One text is hashed, and one replica has no leaf. -/
private lemma toldApart_apart (D : AntiEntropy.Digest) {i j : Bool} (hij : i ≠ j) :
    ToldApart D (mapText bitEncoding.text (apartStores i) (apartKeys i))
      (mapText bitEncoding.text (apartStores j) (apartKeys j)) := by
  have hfalse : mapText bitEncoding.text (apartStores false) (apartKeys false) =
    AntiEntropy.emptyMap := rfl
  have htrue : mapText bitEncoding.text (apartStores true) (apartKeys true) =
    AntiEntropy.single "k" "AQ==" := by
      rfl
  cases i <;> cases j
  · exact absurd rfl hij
  · rw [hfalse, htrue]
    exact toldApart_single D (by decide)
  · rw [hfalse, htrue]
    exact (toldApart_single D (by decide)).symm
  · exact absurd rfl hij

/-- The pass copies the write to the other replica. -/
theorem leaderless_converges_lost :
    mapRepr (apartStores false) "k" ≠ mapRepr (apartStores true) "k" ∧
      mapRepr (runAntiEntropy apartStores [false, true] (fun _ => [false, true]) ["k"] false) "k" =
        mapRepr (runAntiEntropy apartStores [false, true] (fun _ => [false, true]) ["k"] true)
          "k" := by
  have hexact : ExactDiff (treeDiff (AntiEntropy.oneDigest "") bitEncoding.text apartStores
      apartKeys) apartStores [false, true] :=
    exactDiff_treeDiff _ bitEncoding (fun n _ => lists_apart n) fun _ _ _ _ => toldApart_apart _
  have hfound : Finds (treeDiff (AntiEntropy.oneDigest "") bitEncoding.text apartStores apartKeys)
      [false, true] true ["k"] := by
    refine ⟨by decide, by decide, fun key => ?_⟩
    have hshown : mapRepr (apartStores true) key ≠ mapRepr (apartStores false) key ↔
        (apartStores true).getRaw key ≠ none := not_congr Option.map_eq_none_iff
    refine (lists_apart true key).trans ?_
    rw [← hshown, ← hexact true (by decide) false (by decide) (by decide)]
    simp
  exact ⟨by decide +kernel, leaderless_converges alternatingTokens [false, true] ⟨2, 1, 2⟩
    (fun _ => .async) (fun _ => by decide) unsentWrite (by decide +kernel) (by decide)
    (AntiEntropy.oneDigest "") bitEncoding apartKeys (fun n _ => lists_apart n)
    (fun i _ j _ => toldApart_apart _) true ["k"] hfound (fun _ => [false, true])
    (fun _ => List.Perm.refl _) "k" false (by decide) true (by decide)⟩

end Replication.Leaderless
