import Replication.AntiEntropy.Diff
import Replication.Simulation.AntiEntropy

/-!
# Simulation · Trees: which keys an anti-entropy pass repairs

`internal/simulation/antientropy.go` `RunAntiEntropy`, its first half. A pass builds a Merkle tree
of what each online replica shows, takes one of the trees as the reference, and repairs the keys
that the diffs of the other trees from it return.

* `mapText`, `treeDiff` — the map that a tree is built from, and the diff of the trees of two
  replicas.
* `Finds` — the keys of a pass, whatever the reference and the order in which the keys are met.
* `ExactDiff` — the assumption that a comparison returns the keys under which two replicas show
  different contents. It is a condition, not a fact: `treeDiff` misses the empty key, and replicas
  with the same leaf texts.
* `exactDiff_treeDiff` — it holds if the trees tell the replicas apart (`ToldApart`).

A store has no list of its keys here, so what `Keys` returns is an argument.
-/

set_option linter.unusedSectionVars false

namespace Replication.Simulation

open Storage AntiEntropy Conflict

variable {I K V : Type} [LinearOrder I] [DecidableEq K]

/-! ### The keys of a pass -/

/-- The keys of a pass: those that the diffs of the other online replicas from the reference return,
each once. Source: `antientropy.go` `RunAntiEntropy`, its `refID` and `divergent`. -/
structure Finds (diff : I → I → List K) (online : List I) (ref : I) (divergent : List K) :
    Prop where
  ref_mem : ref ∈ online
  nodup : divergent.Nodup
  mem_iff : ∀ key, key ∈ divergent ↔ ∃ i ∈ online, i ≠ ref ∧ key ∈ diff ref i

/-- A comparison of two online replicas returns the keys under which they show different
contents. -/
def ExactDiff (diff : I → I → List K) (stores : I → Store I K V) (online : List I) : Prop :=
  ∀ i ∈ online, ∀ j ∈ online, i ≠ j →
    ∀ key, key ∈ diff i j ↔ mapRepr (stores i) key ≠ mapRepr (stores j) key

section finds

variable {diff : I → I → List K} {online : List I} {ref : I} {divergent : List K}

/-- Every reference finds some list of keys. -/
lemma exists_finds (diff : I → I → List K) (href : ref ∈ online) :
    ∃ divergent, Finds diff online ref divergent := by
  refine ⟨((online.filter (· ≠ ref)).flatMap (diff ref)).dedup, href, List.nodup_dedup _,
    fun key => ?_⟩
  simp [and_assoc]

/-- A pass that finds a key has two replicas to compare. -/
lemma Finds.two_le_length (h : Finds diff online ref divergent) {key : K} (hk : key ∈ divergent) :
    2 ≤ online.length := by
  obtain ⟨i, hi, hne, -⟩ := (h.mem_iff key).mp hk
  have href := h.ref_mem
  match online with
  | [] => cases hi
  | [x] => exact absurd ((List.mem_singleton.mp hi).trans (List.mem_singleton.mp href).symm) hne
  | x :: y :: l => exact Nat.le_add_left 2 l.length

/-- **The reference may be any replica**: with exact comparisons, a pass finds the keys under which
any two online replicas differ. -/
theorem Finds.mem_iff_divergent {stores : I → Store I K V} (h : Finds diff online ref divergent)
    (hexact : ExactDiff diff stores online) (key : K) :
    key ∈ divergent ↔ Divergent stores online key := by
  rw [h.mem_iff]
  constructor
  · rintro ⟨i, hi, hne, hkey⟩
    exact ⟨ref, h.ref_mem, i, hi, (hexact ref h.ref_mem i hi hne.symm key).mp hkey⟩
  · rintro ⟨i, hi, j, hj, hne⟩
    -- one of the two differs from the reference
    have hother : ∃ x ∈ online, mapRepr (stores ref) key ≠ mapRepr (stores x) key := by
      by_contra hnone
      push Not at hnone
      exact hne ((hnone i hi).symm.trans (hnone j hj))
    obtain ⟨x, hx, hdiff⟩ := hother
    have hxref : x ≠ ref := fun heq => hdiff (heq ▸ rfl)
    exact ⟨x, hx, hxref, (hexact ref h.ref_mem x hx hxref.symm key).mpr hdiff⟩

end finds

/-! ### The trees -/

/-- What is hashed for a version: a marker, or the encoded value. -/
def shownText (text : V → String) : Option V → String
  | none => "<tomb>"
  | some value => text value

/-- The map that a tree is built from, over what `Keys` returns. Source: `antientropy.go`
`mapRepr`. -/
def mapText (text : V → String) (store : Store I String V) (keys : List String) :
    GoMap String String :=
  keys.foldl (fun out k =>
    match mapRepr store k with
    | none => out
    | some shown => put out k (shownText text shown)) emptyMap

/-- What the diff of the trees of two replicas returns. -/
def treeDiff (D : Digest) (text : V → String) (stores : I → Store I String V)
    (keys : I → List String) (i j : I) : List String :=
  diff (buildTree D (mapText text (stores i) (keys i)))
    (buildTree D (mapText text (stores j) (keys j)))

/-- An encoding of values, as base64 is: injective, and none of its texts is the marker. -/
structure Encoding (V : Type) where
  text : V → String
  injective : Function.Injective text
  ne_tomb : ∀ value, text value ≠ "<tomb>"

/-- The list holds the keys of a store. Source: `store.go` `Keys`. -/
def Lists (store : Store I K V) (keys : List K) : Prop :=
  ∀ key, key ∈ keys ↔ store.getRaw key ≠ none

/-- The trees tell two maps apart: the digest does not collide on what is hashed for them, they
agree under the empty key, and they are equal if their leaf texts are. -/
structure ToldApart (D : Digest) (a b : GoMap String String) : Prop where
  noCollision : NoCollision D a b
  empty : lookup a "" = lookup b ""
  lines : lines a = lines b → a = b

section trees

variable {store : Store I String V} {keys : List String}

/-- The loop that fills the map, from any map. -/
lemma lookup_foldl_put (text : V → String) (l : List String) (out : GoMap String String)
    (key : String) :
    lookup (l.foldl (fun out k =>
      match mapRepr store k with
      | none => out
      | some shown => put out k (shownText text shown)) out) key =
    (if key ∈ l then (mapRepr store key).map (shownText text) else none).or (lookup out key) := by
  induction l generalizing out with
  | nil => rfl
  | cons k l ih =>
    rw [List.foldl_cons, ih]
    cases hk : mapRepr store k with
    | none => by_cases heq : key = k <;> simp [heq, hk]
    | some =>
      rw [lookup_put]
      by_cases heq : key = k
      · by_cases hl : k ∈ l <;> simp [heq, hk, hl]
      · simp [heq]

/-- What the map of a store holds under a key. -/
lemma lookup_mapText (text : V → String) (hkeys : Lists store keys) (key : String) :
    lookup (mapText text store keys) key = (mapRepr store key).map (shownText text) := by
  unfold mapText
  rw [lookup_foldl_put, lookup_emptyMap, Option.or_none]
  split_ifs with hmem
  · rfl
  have hnone : store.getRaw key = none := by
    by_contra hne
    exact hmem ((hkeys key).mpr hne)
  unfold mapRepr
  rw [hnone]
  rfl

/-- Different contents have different texts. -/
lemma Encoding.shownText_injective (enc : Encoding V) :
    Function.Injective (shownText enc.text) := by
  intro x y h
  cases x with
  | none =>
    cases y with
    | none => rfl
    | some w => exact absurd h.symm (enc.ne_tomb w)
  | some v =>
    cases y with
    | none => exact absurd h (enc.ne_tomb v)
    | some => exact congrArg some (enc.injective h)

/-- **When the comparison of the trees is exact.** -/
theorem exactDiff_treeDiff (D : Digest) (enc : Encoding V) {stores : I → Store I String V}
    {keys : I → List String} {online : List I} (hkeys : ∀ i ∈ online, Lists (stores i) (keys i))
    (happart : ∀ i ∈ online, ∀ j ∈ online, i ≠ j →
      ToldApart D (mapText enc.text (stores i) (keys i)) (mapText enc.text (stores j) (keys j))) :
    ExactDiff (treeDiff D enc.text stores keys) stores online := by
  intro i hi j hj hij key
  obtain ⟨hinj, hempty, hlines⟩ := happart i hi j hj hij
  unfold treeDiff
  rw [mem_diff, mem_diffNodes_buildTree hinj hempty hlines]
  have hne : lookup (mapText enc.text (stores i) (keys i)) key ≠
      lookup (mapText enc.text (stores j) (keys j)) key ↔
        mapRepr (stores i) key ≠ mapRepr (stores j) key := by
    rw [lookup_mapText enc.text (hkeys i hi), lookup_mapText enc.text (hkeys j hj)]
    exact (Option.map_injective enc.shownText_injective).ne_iff
  rw [← hne]
  refine and_iff_right_of_imp fun h hk => h ?_
  rw [hk]
  exact hempty

/-- Two maps are told apart in both orders. -/
lemma ToldApart.symm {D : Digest} {a b : GoMap String String} (h : ToldApart D a b) :
    ToldApart D b a := by
  refine ⟨fun x hx y hy => ?_, h.empty.symm, fun heq => (h.lines heq.symm).symm⟩
  exact h.noCollision (Or.symm hx) (Or.symm hy)

/-- A map with one key is told from the empty one. -/
lemma toldApart_single (D : Digest) {key value : String} (hkey : key ≠ "") :
    ToldApart D emptyMap (single key value) := by
  constructor
  · unfold NoCollision
    rw [hashedTexts_emptyMap, hashedTexts_single]
    rintro x hx y hy -
    simp only [Set.mem_ofPred_eq, List.not_mem_nil, List.mem_singleton, false_or] at hx hy
    rw [hx, hy]
  · rw [lookup_emptyMap, lookup_single, if_neg hkey.symm]
  · unfold AntiEntropy.lines
    rw [sortedPairs_single, sortedPairs_eq_nil_iff.mpr rfl]
    intro h
    cases h

/-- **Two replicas with one key each**, the same one: it is found if the digest tells the leaf texts
apart. -/
theorem mem_treeDiff_one {D : Digest} {text : V → String} {stores : I → Store I String V}
    {key : String} {i j : I} {x y : Option V} (hx : mapRepr (stores i) key = some x)
    (hy : mapRepr (stores j) key = some y) (hkey : key ≠ "")
    (hhash : D.hash (line (key, shownText text x)) ≠ D.hash (line (key, shownText text y)))
    (k : String) : k ∈ treeDiff D text stores (fun _ => [key]) i j ↔ k = key := by
  have hone : ∀ {n : I} {shown : Option V}, mapRepr (stores n) key = some shown →
      mapText text (stores n) [key] = single key (shownText text shown) := by
    intro n shown h
    unfold mapText
    rw [List.foldl_cons, List.foldl_nil, h]
    rfl
  unfold treeDiff
  rw [hone hx, hone hy]
  exact mem_diff_single hkey hhash k

end trees

end Replication.Simulation
