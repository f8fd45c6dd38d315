import Replication.Library.LastWrite
import Replication.Library.TermLog
import Replication.Storage.Entry

/-!
# Storage · Store: the key-value store of a node

`internal/storage/store.go`. `data` is the Go map `map[string]*KVEntry`; the snapshot bytes of
`SnapshotBytes`/`RestoreSnapshot` are modelled by the map itself (JSON is taken to round-trip).
`applyLog` is the reference: the store after applying a list of log entries in order. Two stores
are compared by their `contents`, which leave out the write counter that `Set` stamps on entries.
`Recent C ℓ contents` says that contents show the last writes of a log `ℓ`, or later writes in `C`.
-/

set_option linter.unusedSectionVars false

namespace Replication.Storage

open Library Function

variable {I K V : Type} [DecidableEq K]

/-- A node's store. Source: `store.go` `Store`. -/
structure Store (I K V : Type) where
  /-- The stored entries, tombstones included. -/
  data : K → Option (KVEntry I K V)
  version : ℕ

variable {s : Store I K V}

namespace Store

/-- The empty store. Source: `store.go` `NewStore`. -/
def new : Store I K V := ⟨fun _ => none, 0⟩

/-- The live entry of a key: a tombstone reads as absent. Source: `store.go` `Get`. -/
def get (s : Store I K V) (key : K) : Option (KVEntry I K V) :=
  match s.data key with
  | none => none
  | some e => if e.tombstone then none else some e

/-- The entry of a key, tombstones included. Source: `store.go` `GetRaw`. -/
def getRaw (s : Store I K V) (key : K) : Option (KVEntry I K V) := s.data key

/-- Store a copy of `entry` under the next version. Source: `store.go` `Set`. -/
def set (s : Store I K V) (entry : KVEntry I K V) : Store I K V where
  data := Function.update s.data entry.key (some { entry with version := s.version + 1 })
  version := s.version + 1

lemma of_data_set {x e : KVEntry I K V} {key : K} (h : (s.set x).data key = some e) :
    key = x.key ∧ e = { x with version := s.version + 1 } ∨ key ≠ x.key ∧ s.data key = some e := by
  dsimp only [set] at h
  by_cases hkey : key = x.key
  · subst hkey
    rw [update_self, Option.some.injEq] at h
    exact .inl ⟨rfl, h.symm⟩
  · rw [update_of_ne hkey] at h
    exact .inr ⟨hkey, h⟩

lemma keyed_set (h : ∀ key e, s.data key = some e → e.key = key) (x : KVEntry I K V) (key : K)
    (e : KVEntry I K V) (he : (s.set x).data key = some e) : e.key = key := by
  rcases of_data_set he with ⟨rfl, rfl⟩ | ⟨-, he⟩
  · rfl
  · exact h key e he

/-- Tombstone a key: an existing entry keeps its value, an absent key gets an entry with the
zero value. Source: `store.go` `Delete`. -/
def delete [Inhabited V] (s : Store I K V) (key : K) (nodeID : I) (ts : ℤ)
    (vc : VectorClock I) : Store I K V where
  data := Function.update s.data key <| some <|
    match s.data key with
    | some existing =>
      { existing with
        tombstone := true, timestamp := ts, nodeID := nodeID, vclock := vc,
        version := s.version + 1 }
    | none =>
      { key := key, value := default, vclock := vc, timestamp := ts, nodeID := nodeID,
        tombstone := true, version := s.version + 1 }
  version := s.version + 1

/-- The serialized contents. Source: `store.go` `SnapshotBytes`. -/
def snapshotBytes (s : Store I K V) : K → Option (KVEntry I K V) := s.data

/-- Replace the contents; the write counter stays. Source: `store.go` `RestoreSnapshot`. -/
def restoreSnapshot (s : Store I K V) (b : K → Option (KVEntry I K V)) : Store I K V :=
  { s with data := b }

/-- The state of an index: log entries applied in order. -/
def applyLog (s : Store I K V) (es : List (LogEntry I K V)) : Store I K V :=
  es.foldl (fun s e => s.set e.toKV) s

lemma applyLog_append (s : Store I K V) (es es' : List (LogEntry I K V)) :
    s.applyLog (es ++ es') = (s.applyLog es).applyLog es' :=
  List.foldl_append

/-- The stores that the operations build; a snapshot is taken from such a store. -/
inductive Reachable [Inhabited V] : Store I K V → Prop
  | new : Reachable new
  | set {s : Store I K V} (entry : KVEntry I K V) (h : Reachable s) : Reachable (s.set entry)
  | delete {s : Store I K V} (key : K) (nodeID : I) (ts : ℤ) (vc : VectorClock I)
      (h : Reachable s) : Reachable (s.delete key nodeID ts vc)
  | restoreSnapshot {s s' : Store I K V} (h : Reachable s) (h' : Reachable s') :
      Reachable (s.restoreSnapshot s'.snapshotBytes)

lemma Reachable.key_eq [Inhabited V] (h : s.Reachable) :
    ∀ key e, s.data key = some e → e.key = key := by
  induction h with
  | new =>
    intro key e he
    exact absurd he (Option.some_ne_none e).symm
  | set entry _ ih => exact keyed_set ih entry
  | delete k nodeID ts vc _ ih =>
    intro key e he
    simp only [Store.delete, update_apply] at he
    split_ifs at he with hk
    · subst hk
      split at he
      · next existing hdata =>
          cases he
          exact ih key existing hdata
      · cases he
        rfl
    · exact ih key e he
  | restoreSnapshot _ _ _ ih => exact ih

end Store

/-! ### Contents -/

/-- What a stored entry says about its key: all but the store's own write counter. -/
def KVEntry.content (e : KVEntry I K V) : KVEntry I K V := { e with version := 0 }

/-- What data holds, up to write counters. -/
def contentsOf (data : K → Option (KVEntry I K V)) : K → Option (KVEntry I K V) :=
  fun k => (data k).map KVEntry.content

/-- What a store holds, up to write counters. -/
def Store.contents (s : Store I K V) : K → Option (KVEntry I K V) := contentsOf s.data

/-- The contents obtained by applying log entries in order to the empty store. -/
def stateOf (es : List (LogEntry I K V)) : K → Option (KVEntry I K V) :=
  (Store.new.applyLog es).contents

lemma Store.contents_eq_map (s : Store I K V) (k : K) :
    s.contents k = (s.data k).map KVEntry.content := rfl

lemma contents_set (s : Store I K V) (e : KVEntry I K V) :
    (s.set e).contents = update s.contents e.key (some e.content) := by
  funext k
  exact apply_update (fun _ => Option.map KVEntry.content) s.data e.key _ k

lemma contents_applyLog {s' : Store I K V} (h : s.contents = s'.contents)
    (es : List (LogEntry I K V)) : (s.applyLog es).contents = (s'.applyLog es).contents := by
  induction es generalizing s s' with
  | nil => exact h
  | cons e es ih =>
    refine ih ?_
    rw [contents_set, contents_set, h]

/-- A store with the state of a log, after applying more entries, has the state of the longer
log. -/
lemma contents_applyLog_stateOf {es : List (LogEntry I K V)} (h : s.contents = stateOf es)
    (es' : List (LogEntry I K V)) : (s.applyLog es').contents = stateOf (es ++ es') := by
  rw [stateOf, Store.applyLog_append]
  exact contents_applyLog h es'

/-! ### Views -/

/-- What a stored entry shows: its value or that it is a tombstone, and the stamp, the origin and
the vector clock. The value below a tombstone does not show. -/
def KVEntry.visible (e : KVEntry I K V) : Option V × ℤ × I × VectorClock I :=
  (if e.tombstone then none else some e.value, e.timestamp, e.nodeID, e.vclock)

/-- What a store shows under a key. -/
def Store.view (s : Store I K V) (k : K) : Option (Option V × ℤ × I × VectorClock I) :=
  (s.data k).map KVEntry.visible

lemma Store.view_eq_contents (s : Store I K V) (k : K) :
    s.view k = (s.contents k).map KVEntry.visible := by
  rw [Store.contents_eq_map, Option.map_map]
  rfl

lemma view_set (s : Store I K V) (e : KVEntry I K V) :
    (s.set e).view = update s.view e.key (some e.visible) := by
  funext k
  exact apply_update (fun _ => Option.map KVEntry.visible) s.data e.key _ k

lemma view_delete [Inhabited V] (s : Store I K V) (key : K) (nodeID : I) (ts : ℤ)
    (vc : VectorClock I) :
    (s.delete key nodeID ts vc).view = update s.view key (some (none, ts, nodeID, vc)) := by
  funext k
  refine (apply_update (fun _ => Option.map KVEntry.visible) s.data key _ k).trans ?_
  cases s.data key <;> rfl

/-! ### Last writes -/

/-- Every key of the contents has the effect of an entry in `C` that no entry of `ℓ` for that key
comes after. -/
abbrev Recent (C : ℕ → LogEntry I K V → Prop) (ℓ : List (LogEntry I K V))
    (contents : K → Option (KVEntry I K V)) : Prop :=
  LastWrite LogEntry.key (fun e => e.toKV.content) C (fun i e => entryAt ℓ i = some e) contents

section recent

variable {C : ℕ → LogEntry I K V → Prop} {ℓ ℓ' es : List (LogEntry I K V)} {s : Store I K V}

lemma recent_nil : Recent C [] (Store.new : Store I K V).contents := by
  refine lastWrite_empty fun i e he => ?_
  simp [entryAt_nil] at he

lemma Recent.of_isPrefix {contents : K → Option (KVEntry I K V)} (h : Recent C ℓ contents)
    (hp : ℓ' <+: ℓ) : Recent C ℓ' contents := by
  refine h.mono (fun _ _ hc => hc) fun i e he => ?_
  rw [entryAt_prefix_eq hp (entryAt_bounds he).2]
  exact he

lemma Recent.set (h : Recent C ℓ s.contents) {e : LogEntry I K V} (he : C (ℓ.length + 1) e) :
    Recent C (ℓ ++ [e]) (s.set e.toKV).contents := by
  rw [contents_set]
  refine h.write he (fun i e' he' => ?_) fun i e' he' _ => ?_
  · by_cases hi : i ≤ ℓ.length
    · rw [entryAt_prefix_eq (List.prefix_append ℓ [e]) hi] at he'
      exact .inl he'
    · obtain rfl : i = ℓ.length + 1 := by
        have := (entryAt_bounds he').2
        rw [List.length_append, List.length_singleton] at this
        omega
      rw [entryAt_append_self, Option.some.injEq] at he'
      exact .inr he'.symm
  · have := (entryAt_bounds he').2
    rwa [List.length_append, List.length_singleton] at this

lemma Recent.applyLog (h : Recent C ℓ s.contents)
    (hes : ∀ i e, ℓ.length < i → entryAt (ℓ ++ es) i = some e → C i e) :
    Recent C (ℓ ++ es) (s.applyLog es).contents := by
  induction es generalizing s ℓ with
  | nil =>
    rw [List.append_nil]
    exact h
  | cons e es ih =>
    have happ : ℓ ++ e :: es = ℓ ++ [e] ++ es := by
      rw [List.append_assoc]
      rfl
    have he : C (ℓ.length + 1) e := by
      refine hes _ e (Nat.lt_succ_self _) ?_
      rw [happ, entryAt_prefix_eq (List.prefix_append _ es) (by simp)]
      exact entryAt_append_self ℓ e
    rw [happ]
    refine ih (h.set he) fun i e' hi he' => hes i e' ?_ (happ ▸ he')
    rw [List.length_append, List.length_singleton] at hi
    omega

/-- The state of a log is recent. -/
lemma recent_stateOf (ℓ : List (LogEntry I K V)) :
    Recent (fun i e => entryAt ℓ i = some e) ℓ (stateOf ℓ) := by
  have h := (recent_nil (C := fun i e => entryAt ℓ i = some e)).applyLog fun i e _ he => he
  exact h

end recent

end Replication.Storage
