import Mathlib.Data.List.Sort
import Replication.Storage.VectorClock

/-!
# Conflict · CRDT: values and their merge

`internal/conflict/crdt.go`, `crdt_types.go` and `rga.go`. A stored value is a byte string. Most
byte strings are opaque; one that decodes to a JSON object with a known `crdt_type` is a document.
Different byte strings can decode to the same document (white space, the order of fields), so a
document value is the document and the number of its spelling; `json.Marshal` writes spelling `0`.

* `Doc` — the five document types. `σ` is the type of the strings inside documents.
-/

namespace Replication.Conflict

open Storage

/-- A Go map: the keys present, and a lookup that reads the zero value off the map. -/
@[ext] structure GoMap (σ ν : Type) [Inhabited ν] where
  keys : Finset σ
  get : σ → ν
  /-- A missing key reads the zero value. -/
  get_of_notMem : ∀ k, k ∉ keys → get k = default

variable {σ : Type}

instance {ν : Type} [Inhabited ν] [DecidableEq σ] [DecidableEq ν] : DecidableEq (GoMap σ ν) :=
  fun a b => decidable_of_iff (a.keys = b.keys ∧ ∀ k ∈ a.keys, a.get k = b.get k) <| by
    constructor
    · rintro ⟨hkeys, hget⟩
      refine GoMap.ext hkeys (funext fun k => ?_)
      by_cases hk : k ∈ a.keys
      · exact hget k hk
      · rw [a.get_of_notMem k hk, b.get_of_notMem k (hkeys ▸ hk)]
    · rintro rfl
      exact ⟨rfl, fun _ _ => rfl⟩

/-! ### Counters -/

/-- Source: `crdt.go` `GCounter`. The map is a `map[string]uint64`, as a vector clock is; it is
`none` when it is `nil`. -/
structure GCounter (σ : Type) where
  counts : Option (VectorClock σ)

/-- The larger count of each slot; the loop is that of `VectorClock.Merge`. Only called with maps.
Source: `crdt.go` `GCounter.Merge`. -/
def GCounter.mergeCounts [DecidableEq σ] (g other : VectorClock σ) : VectorClock σ := g.merge other

/-- Source: `crdt_types.go` `PNCounter`. -/
structure PNCounter (σ : Type) where
  p : VectorClock σ
  n : VectorClock σ

/-- Both maps are built from the empty one. Source: `crdt_types.go` `PNCounter.Merge`. -/
def PNCounter.merge [DecidableEq σ] (a b : PNCounter σ) : PNCounter σ where
  p := (VectorClock.empty.merge a.p).merge b.p
  n := (VectorClock.empty.merge a.n).merge b.n

/-! ### Sets -/

/-- Source: `crdt_types.go` `ORSet`. -/
structure ORSet (σ : Type) where
  adds : GoMap σ (List σ)
  removes : GoMap σ Bool

variable [LinearOrder σ]

/-- The tags of an element on both sides, each once, in order. -/
def ORSet.mergedTags (a b : ORSet σ) (el : σ) : List σ :=
  (a.adds.get el ++ b.adds.get el).dedup.insertionSort (· ≤ ·)

/-- Tags are united element by element; an element without tags has no entry. A removed tag is
written as `true` whatever it was. Source: `crdt_types.go` `ORSet.Merge`. -/
def ORSet.merge (a b : ORSet σ) : ORSet σ where
  adds :=
    { keys := (a.adds.keys ∪ b.adds.keys).filter fun el => a.mergedTags b el ≠ []
      get := a.mergedTags b
      get_of_notMem := fun el hel => by
        rw [Finset.mem_filter, Finset.mem_union] at hel
        by_contra hne
        refine hel ⟨?_, hne⟩
        by_contra hmem
        rw [not_or] at hmem
        refine hne ?_
        rw [ORSet.mergedTags, a.adds.get_of_notMem el hmem.1, b.adds.get_of_notMem el hmem.2]
        rfl }
  removes :=
    { keys := a.removes.keys ∪ b.removes.keys
      get := fun t => decide (t ∈ a.removes.keys ∪ b.removes.keys)
      get_of_notMem := fun t ht => decide_eq_false ht }

/-! ### Maps -/

/-- Source: `crdt_types.go` `LWWMapEntry`. -/
structure LWWMapEntry (σ : Type) where
  value : σ
  timestamp : ℤ
  nodeID : σ
  deriving DecidableEq

instance [Inhabited σ] : Inhabited (LWWMapEntry σ) := ⟨⟨default, 0, default⟩⟩

/-- Source: `crdt_types.go` `LWWMap`. -/
structure LWWMap (σ : Type) [Inhabited σ] where
  entries : GoMap σ (LWWMapEntry σ)

/-- Source: `crdt_types.go` `lwwMapEntryWins`. -/
def lwwMapEntryWins (x y : LWWMapEntry σ) : Bool :=
  if x.timestamp ≠ y.timestamp then y.timestamp < x.timestamp
  else if x.nodeID ≠ y.nodeID then y.nodeID < x.nodeID
  else y.value < x.value

/-- The winning entry of every key. Source: `crdt_types.go` `LWWMap.Merge`. -/
def LWWMap.merge [Inhabited σ] (a b : LWWMap σ) : LWWMap σ where
  entries :=
    { keys := a.entries.keys ∪ b.entries.keys
      get := fun k =>
        if k ∈ b.entries.keys ∧
            (k ∉ a.entries.keys ∨ lwwMapEntryWins (b.entries.get k) (a.entries.get k) = true) then
          b.entries.get k
        else a.entries.get k
      get_of_notMem := fun k hk => by
        rw [Finset.mem_union, not_or] at hk
        rw [if_neg (fun h => hk.2 h.1)]
        exact a.entries.get_of_notMem k hk.1 }

/-! ### Sequences -/

/-- Source: `rga.go` `RGAElem`. -/
structure RGAElem (σ : Type) where
  id : σ
  value : σ
  /-- The id of the element it was inserted after. -/
  after : σ
  deleted : Bool
  deriving DecidableEq

/-- Source: `rga.go` `RGA`. -/
structure RGA (σ : Type) where
  /-- The elements, in storage order. -/
  elems : List (RGAElem σ)

/-- One round of the loop over `byID`: a known id keeps its element and takes over the deletion.
Source: `rga.go` `RGA.Merge`. -/
def addElem (byID : List (RGAElem σ)) (e : RGAElem σ) : List (RGAElem σ) :=
  if ∃ cur ∈ byID, cur.id = e.id then
    byID.map fun cur =>
      if cur.id = e.id then { cur with deleted := cur.deleted || e.deleted } else cur
  else byID ++ [e]

/-- Elements are united by id and stored in the order of their ids. Source: `rga.go` `RGA.Merge`. -/
def RGA.merge (a b : RGA σ) : RGA σ where
  elems := ((a.elems ++ b.elems).foldl addElem []).insertionSort fun x y => x.id ≤ y.id

/-! ### Values -/

/-- A document. -/
inductive Doc (σ : Type) [Inhabited σ] where
  /-- `crdt_type` is `gcounter`. -/
  | gcounter (g : GCounter σ)
  /-- `crdt_type` is `pncounter`. -/
  | pncounter (c : PNCounter σ)
  /-- `crdt_type` is `orset`. -/
  | orset (s : ORSet σ)
  /-- `crdt_type` is `lwwmap`. -/
  | lwwmap (m : LWWMap σ)
  /-- `crdt_type` is `rga`. -/
  | rga (r : RGA σ)

/-- What is stored for a key. -/
inductive Value (σ : Type) [Inhabited σ] where
  /-- Not a document: no JSON object, no known `crdt_type`, or fields of the wrong type. -/
  | plain (bytes : List UInt8)
  /-- A document, in one of its spellings. -/
  | doc (d : Doc σ) (spelling : ℕ)

/-- The `nil` byte slice. -/
instance [Inhabited σ] : Inhabited (Value σ) := ⟨.plain []⟩

/-- Comparison of documents, component by component. -/
def Doc.same [Inhabited σ] : Doc σ → Doc σ → Bool
  | .gcounter g, .gcounter h => g.counts = h.counts
  | .pncounter a, .pncounter b => a.p = b.p ∧ a.n = b.n
  | .orset a, .orset b => a.adds = b.adds ∧ a.removes = b.removes
  | .lwwmap a, .lwwmap b => a.entries = b.entries
  | .rga a, .rga b => a.elems = b.elems
  | _, _ => false

/-- The comparison decides equality of documents. -/
lemma Doc.same_iff [Inhabited σ] {d d' : Doc σ} : d.same d' = true ↔ d = d' := by
  rcases d with ⟨⟨g⟩⟩ | ⟨p, n⟩ | ⟨a, r⟩ | ⟨⟨m⟩⟩ | ⟨⟨l⟩⟩ <;>
    rcases d' with ⟨⟨g'⟩⟩ | ⟨p', n'⟩ | ⟨a', r'⟩ | ⟨⟨m'⟩⟩ | ⟨⟨l'⟩⟩ <;> simp [Doc.same]

instance [Inhabited σ] : DecidableEq (Doc σ) := fun _ _ => decidable_of_iff _ Doc.same_iff

/-- Comparison of values. -/
def Value.same [Inhabited σ] : Value σ → Value σ → Bool
  | .plain a, .plain b => a = b
  | .doc d k, .doc d' k' => d = d' ∧ k = k'
  | _, _ => false

/-- It decides equality of values. -/
lemma Value.same_iff [Inhabited σ] {v w : Value σ} : v.same w = true ↔ v = w := by
  cases v <;> cases w <;> simp [Value.same]

instance [Inhabited σ] : DecidableEq (Value σ) := fun _ _ => decidable_of_iff _ Value.same_iff

/-- The reason `mergeCRDT` reports. -/
inductive MergeReason where
  /-- "gcounter_merge". -/
  | gcounterMerge
  /-- "pncounter_merge". -/
  | pncounterMerge
  /-- "orset_merge". -/
  | orsetMerge
  /-- "lwwmap_merge". -/
  | lwwmapMerge
  /-- "rga_merge". -/
  | rgaMerge
  deriving DecidableEq, Repr

variable [Inhabited σ]

/-- Merge two decoded documents of the same type; a G-counter needs its map on both sides. -/
def Doc.merge : Doc σ → Doc σ → Option (Doc σ × MergeReason)
  | .gcounter ⟨some g⟩, .gcounter ⟨some h⟩ =>
    some (.gcounter ⟨some (GCounter.mergeCounts g h)⟩, .gcounterMerge)
  | .pncounter a, .pncounter b => some (.pncounter (a.merge b), .pncounterMerge)
  | .orset a, .orset b => some (.orset (a.merge b), .orsetMerge)
  | .lwwmap a, .lwwmap b => some (.lwwmap (a.merge b), .lwwmapMerge)
  | .rga a, .rga b => some (.rga (a.merge b), .rgaMerge)
  | _, _ => none

/-- Merge two values when both are documents of the same type. Source: `crdt.go` `mergeCRDT`. -/
def mergeCRDT : Value σ → Value σ → Option (Value σ × MergeReason)
  | .doc d _, .doc d' _ => (d.merge d').map fun r => (.doc r.1 0, r.2)
  | _, _ => none

end Replication.Conflict
