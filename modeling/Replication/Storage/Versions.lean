import Replication.Library.Run
import Replication.Storage.Store

/-!
# Storage · Versions: the write counter of a store

`internal/storage/store.go`. `Set` and `Delete` stamp what they store with a counter that they
raise; `RestoreSnapshot` replaces the entries and leaves the counter. Any number of stores whose
snapshots are taken at any time and restored at any store, at any time and any number of times.
-/

set_option linter.unusedSectionVars false

namespace Replication.Storage

open Library Function

variable {ν I K V : Type} [DecidableEq ν] [DecidableEq K] [Inhabited V]

/-- Stores, and the snapshots that have been taken of them. -/
structure Stores (ν I K V : Type) where
  stores : ν → Store I K V
  /-- The snapshots taken so far, in their order. -/
  snapshots : List (K → Option (KVEntry I K V))

/-- The calls on a family of stores. -/
inductive StoreOp (ν I K V : Type) where
  | set (n : ν) (entry : KVEntry I K V)
  | delete (n : ν) (key : K) (nodeID : I) (ts : ℤ) (vc : VectorClock I)
  | snapshotBytes (n : ν)
  /-- `RestoreSnapshot` of one of the snapshots that have been taken. -/
  | restoreSnapshot (n : ν) (taken : ℕ)

namespace Stores

/-- Empty stores, no snapshot. -/
def new : Stores ν I K V := ⟨fun _ => .new, []⟩

/-- Replace one of the stores. -/
def put (s : Stores ν I K V) (n : ν) (st : Store I K V) : Stores ν I K V :=
  { s with stores := Function.update s.stores n st }

/-- One call on one of the stores. -/
def step (s : Stores ν I K V) : StoreOp ν I K V → Stores ν I K V
  | .set n entry => s.put n ((s.stores n).set entry)
  | .delete n key nodeID ts vc => s.put n ((s.stores n).delete key nodeID ts vc)
  | .snapshotBytes n => { s with snapshots := s.snapshots ++ [(s.stores n).snapshotBytes] }
  | .restoreSnapshot n taken =>
    match s.snapshots[taken]? with
    | none => s
    | some b => s.put n ((s.stores n).restoreSnapshot b)

/-- A snapshot that is restored has no version above the counter of the store. -/
def Fits (s : Stores ν I K V) : StoreOp ν I K V → Prop
  | .restoreSnapshot n taken =>
    ∀ b, s.snapshots[taken]? = some b → ∀ key e, b key = some e → e.version ≤ (s.stores n).version
  | _ => True

end Stores

/-! ### One store -/

/-- No two keys have one version. -/
def DistinctVersions (data : K → Option (KVEntry I K V)) : Prop :=
  ∀ key key' e e', data key = some e → data key' = some e' → e.version = e'.version → key = key'

/-- Versions are at most the counter, and differ. -/
structure Versioned (st : Store I K V) : Prop where
  /-- The counter is at least the version of every stored entry. -/
  bounded : ∀ key e, st.data key = some e → e.version ≤ st.version
  distinct : DistinctVersions st.data

/-- A write: one key gets an entry with the raised counter as its version. -/
structure Stamps (st st' : Store I K V) (key : K) : Prop where
  version_eq : st'.version = st.version + 1
  written : ∃ e, st'.data key = some e ∧ e.version = st.version + 1
  others : ∀ key', key' ≠ key → st'.data key' = st.data key'

lemma stamps_set (st : Store I K V) (entry : KVEntry I K V) :
    Stamps st (st.set entry) entry.key where
  version_eq := rfl
  written := ⟨_, update_self .., rfl⟩
  others _ hne := update_of_ne hne ..

lemma stamps_delete (st : Store I K V) (key : K) (nodeID : I) (ts : ℤ) (vc : VectorClock I) :
    Stamps st (st.delete key nodeID ts vc) key where
  version_eq := rfl
  written := by
    refine ⟨_, update_self .., ?_⟩
    split <;> rfl
  others _ hne := update_of_ne hne ..

section writes

variable {st st' : Store I K V} {key : K}

lemma versioned_new : Versioned (Store.new : Store I K V) where
  bounded _ _ he := by cases he
  distinct _ _ _ _ he := by cases he

/-- **A write keeps versions** below the counter and apart. -/
theorem Versioned.stamps (h : Versioned st) (hw : Stamps st st' key) : Versioned st' := by
  obtain ⟨new, hnew, hversion⟩ := hw.written
  -- an entry of the new store is the one written or an old one, with a smaller version
  have hcases : ∀ k e, st'.data k = some e →
      k = key ∧ e.version = st.version + 1 ∨ st.data k = some e ∧ e.version ≤ st.version := by
    intro k e he
    by_cases hk : k = key
    · subst hk
      rw [hnew, Option.some.injEq] at he
      exact .inl ⟨rfl, he ▸ hversion⟩
    · rw [hw.others k hk] at he
      exact .inr ⟨he, h.bounded k e he⟩
  refine ⟨fun k e he => ?_, fun k k' e e' he he' heq => ?_⟩
  · rw [hw.version_eq]
    rcases hcases k e he with ⟨-, hv⟩ | ⟨-, hv⟩ <;> omega
  · rcases hcases k e he with ⟨rfl, hv⟩ | ⟨hold, hv⟩
    · rcases hcases k' e' he' with ⟨rfl, -⟩ | ⟨-, hv'⟩
      · rfl
      · omega
    · rcases hcases k' e' he' with ⟨rfl, hv'⟩ | ⟨hold', -⟩
      · omega
      · exact h.distinct k k' e e' hold hold' heq

/-- **A write raises the version** of its key. -/
theorem Versioned.raises (h : Versioned st) (hw : Stamps st st' key) {old : KVEntry I K V}
    (hold : st.data key = some old) :
    ∃ new, st'.data key = some new ∧ old.version < new.version := by
  obtain ⟨new, hnew, hversion⟩ := hw.written
  have hle := h.bounded key old hold
  exact ⟨new, hnew, by omega⟩

end writes

/-! ### Runs -/

/-- What the versions of a store are for: they are at most the counter, they differ, and every write
gives its key a greater one. -/
structure MonotoneVersions (st : Store I K V) : Prop where
  /-- The counter is at least the version of every stored entry. -/
  bounded : ∀ key e, st.data key = some e → e.version ≤ st.version
  /-- No two stored keys share a version. -/
  distinct : ∀ key key' e e', st.data key = some e → st.data key' = some e' →
    e.version = e'.version → key = key'
  /-- A `Set` gives its key a version greater than the one it had. -/
  set_raises : ∀ entry old, st.data entry.key = some old →
    ∃ new, (st.set entry).data entry.key = some new ∧ old.version < new.version
  /-- A `Delete` gives its key a version greater than the one it had. -/
  delete_raises : ∀ key nodeID ts vc old, st.data key = some old →
    ∃ new, (st.delete key nodeID ts vc).data key = some new ∧ old.version < new.version

lemma monotoneVersions_iff {st : Store I K V} : MonotoneVersions st ↔ Versioned st := by
  refine ⟨fun h => ⟨h.bounded, h.distinct⟩, fun h => ⟨h.bounded, h.distinct, ?_, ?_⟩⟩
  · exact fun entry old hold => h.raises (stamps_set st entry) hold
  · exact fun key nodeID ts vc old hold => h.raises (stamps_delete st key nodeID ts vc) hold

/-- All stores are versioned, and the snapshots have different versions. -/
structure VersionInv (s : Stores ν I K V) : Prop where
  stores : ∀ n, Versioned (s.stores n)
  snapshots : ∀ b ∈ s.snapshots, DistinctVersions b

lemma versionInv_new : VersionInv (Stores.new : Stores ν I K V) :=
  ⟨fun _ => versioned_new, nofun⟩

section step

variable {s : Stores ν I K V}

lemma forall_put_iff (h : ∀ n, Versioned (s.stores n)) {n : ν} {st : Store I K V} :
    (∀ m, Versioned ((s.put n st).stores m)) ↔ Versioned st :=
  (forall_update_iff s.stores fun _ => Versioned).trans (and_iff_left fun m _ => h m)

/-- **What one call does**: the stores stay versioned iff a snapshot that it restores fits. -/
theorem fits_iff (h : VersionInv s) (op : StoreOp ν I K V) :
    s.Fits op ↔ ∀ n, Versioned ((s.step op).stores n) := by
  cases op with
  | set n entry =>
    refine iff_of_true trivial ((forall_put_iff h.stores).mpr ?_)
    exact (h.stores n).stamps (stamps_set _ entry)
  | delete n key nodeID ts vc =>
    refine iff_of_true trivial ((forall_put_iff h.stores).mpr ?_)
    exact (h.stores n).stamps (stamps_delete _ key nodeID ts vc)
  | snapshotBytes => exact iff_of_true trivial h.stores
  | restoreSnapshot n taken =>
    dsimp only [Stores.Fits, Stores.step]
    cases hb : s.snapshots[taken]? with
    | none => exact iff_of_true (fun b hb' => nomatch hb') h.stores
    | some b =>
      rw [forall_put_iff h.stores]
      constructor
      · intro hfits
        exact ⟨fun key e he => hfits b rfl key e he,
          h.snapshots b (List.mem_of_getElem? hb)⟩
      · intro hst b' hb' key e he
        obtain rfl := Option.some.inj hb'
        exact hst.bounded key e he

lemma distinct_step (h : VersionInv s) (op : StoreOp ν I K V) :
    ∀ b ∈ (s.step op).snapshots, DistinctVersions b := by
  cases op with
  | set | delete => exact h.snapshots
  | snapshotBytes n =>
    intro b hb
    rcases List.mem_append.mp hb with hb | hb
    · exact h.snapshots b hb
    · obtain rfl := List.mem_singleton.mp hb
      exact (h.stores n).distinct
  | restoreSnapshot n taken =>
    dsimp only [Stores.step]
    split <;> exact h.snapshots

end step

/-- **Store versions are monotone.** For any calls of any stores: every store's counter is at least
the version of every stored entry, no two stored keys share a version, and every `Set` or `Delete`
gives its key a strictly greater version, all along the run — iff no snapshot is restored that has a
version above the counter. -/
theorem versions_monotone_iff (ops : List (StoreOp ν I K V)) :
    Along Stores.step (fun s op => s.Fits op) Stores.new ops ↔
      ∀ ops', ops' <+: ops → ∀ n,
        MonotoneVersions ((run Stores.step Stores.new ops').stores n) := by
  simp only [monotoneVersions_iff]
  refine along_iff_forall_prefix VersionInv
    (fun s : Stores ν I K V => ∀ n, Versioned (s.stores n)) (fun s h => h.stores)
    (fun s op h => fits_iff h op) (fun s op hfits h => ?_) versionInv_new ops
  exact ⟨(fits_iff h op).mp hfits, distinct_step h op⟩

/-- An entry of no importance. -/
private def plain (key : ℕ) : KVEntry Unit ℕ ℕ := ⟨key, 0, .empty, 0, (), false, 0⟩

/-- A snapshot of one store is restored at another one that has made as many writes. -/
private def restoredLater : List (StoreOp Bool Unit ℕ ℕ) :=
  [.set false (plain 7), .snapshotBytes false, .set true (plain 8), .restoreSnapshot true 0,
    .delete true 7 () 5 .empty]

/-- The snapshot fits a store with as many writes. -/
theorem versions_monotone_restoredLater :
    Along Stores.step (fun s op => s.Fits op) Stores.new restoredLater ∧
      ∀ n, MonotoneVersions ((run Stores.step Stores.new restoredLater).stores n) := by
  have hfits : Along Stores.step (fun s op => s.Fits op) Stores.new restoredLater := by
    refine ⟨trivial, trivial, trivial, ?_, trivial, trivial⟩
    intro b hb key e he
    obtain rfl := Option.some.inj hb
    have hkey : key = 7 := by
      by_contra hne
      exact absurd he (by simp [Stores.step, Stores.put, Stores.new, Store.snapshotBytes,
        Store.set, Store.new, plain, hne])
    subst hkey
    obtain rfl := Option.some.inj he
    decide
  exact ⟨hfits, (versions_monotone_iff restoredLater).mp hfits _ (List.prefix_refl _)⟩

/-- A store restores a snapshot of one that has made more writes: an entry has a version above the
counter; a write of its key then has a smaller version, and one of another key the version of a key
that was restored. -/
theorem restore_breaks_versions :
    ((run Stores.step (Stores.new : Stores Bool Unit ℕ ℕ)
        [.set false (plain 7), .set false (plain 8), .snapshotBytes false,
          .restoreSnapshot true 0]).stores true).version = 0 ∧
      (((run Stores.step (Stores.new : Stores Bool Unit ℕ ℕ)
        [.set false (plain 7), .set false (plain 8), .snapshotBytes false,
          .restoreSnapshot true 0]).stores true).data 8).map KVEntry.version = some 2 ∧
      (((run Stores.step (Stores.new : Stores Bool Unit ℕ ℕ)
        [.set false (plain 7), .set false (plain 8), .snapshotBytes false,
          .restoreSnapshot true 0, .set true (plain 8)]).stores true).data 8).map KVEntry.version =
            some 1 ∧
      (((run Stores.step (Stores.new : Stores Bool Unit ℕ ℕ)
        [.set false (plain 7), .set false (plain 8), .snapshotBytes false,
          .restoreSnapshot true 0, .set true (plain 9)]).stores true).data 9).map KVEntry.version =
        (((run Stores.step (Stores.new : Stores Bool Unit ℕ ℕ)
        [.set false (plain 7), .set false (plain 8), .snapshotBytes false,
          .restoreSnapshot true 0, .set true (plain 9)]).stores true).data 7).map
            KVEntry.version := by
  decide

end Replication.Storage
