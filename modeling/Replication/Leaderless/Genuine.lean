import Replication.Leaderless.Carries
import Replication.Leaderless.Levels

/-!
# Leaderless · Genuine: versions and what is shown of them

In digest mode an answer shows the metadata of a version only, and a read goes on with what it is
shown. It repairs with it if there is a value or a tombstone, so what reaches a store is a version
that a client wrote, up to its clock.
-/

set_option linter.unusedSectionVars false

namespace Replication.Leaderless

open Storage Node Clock Library
open HashRing (Hashing)

variable {I K V : Type} [LinearOrder I] [DecidableEq K] [Inhabited V] [DecidableEq V]

/-! ### Versions of operations -/

/-- The same version up to its clock and the write counter: the same key, and the same contents of
`entryHash`. -/
def SameVersion (x e : KVEntry I K V) : Prop := x.key = e.key ∧ entryHash x = entryHash e

/-- The same version has the same stamp. -/
lemma SameVersion.stamp {x e : KVEntry I K V} (h : SameVersion x e) : x.stamp = e.stamp := by
  unfold SameVersion entryHash at h
  simp only [Prod.mk.injEq] at h
  exact KVEntry.stamp_eq_iff.mpr ⟨h.2.1, h.2.2.1⟩

/-- A version of a client operation; a delete has no value. -/
def Cluster.Genuine (s : Cluster I K V) (e : KVEntry I K V) : Prop :=
  (∃ c, .write c ∈ s.calls ∧ SameVersion e c.entry) ∧ (e.tombstone = true → e.value = default)

/-- A version of a client operation, possibly without its value. -/
def Cluster.Sketched (s : Cluster I K V) (e : KVEntry I K V) : Prop :=
  ∃ x, s.Genuine x ∧ e.key = x.key ∧ e.stamp = x.stamp ∧ e.tombstone = x.tombstone ∧
    (e.value = x.value ∨ e.value = default)

section genuine

variable {H : Hashing I K} {s s' : Cluster I K V} {a : Action I K V}

/-- Versions of client operations and their sketches go together. -/
lemma passes_genuine (s : Cluster I K V) : Passes True s.Genuine s.Sketched where
  version _ _ he := he
  full e he := ⟨e, he, rfl, rfl, rfl, .inl rfl⟩
  metadata _ e he := ⟨e, he, rfl, rfl, rfl, .inr rfl⟩
  content := by
    rintro e ⟨x, ⟨⟨c, hc, hsame⟩, hdelete⟩, hkey, hstamp, htomb, hvalue⟩ hcontent
    -- without a value it is a tombstone, and then the operation has none either
    have hval : e.value = x.value := by
      rcases hvalue with hvalue | hdefault
      · exact hvalue
      · rcases of_decide_eq_true hcontent with hne | htrue
        · exact absurd hdefault hne
        · rw [hdefault, hdelete (htomb ▸ htrue)]
    obtain ⟨hts, hnode⟩ := KVEntry.stamp_eq_iff.mp hstamp
    have hhash : entryHash e = entryHash x := by
      unfold entryHash
      rw [hts, hnode, htomb, hval]
    refine ⟨⟨c, hc, hkey.trans hsame.1, hhash.trans hsame.2⟩, fun htrue => ?_⟩
    rw [hval]
    exact hdelete (htomb ▸ htrue)

/-- Operations are not forgotten. -/
lemma Cluster.Genuine.step {e : KVEntry I K V} (h : s.Genuine e) : (s.step H a).Genuine e := by
  obtain ⟨⟨c, hc, hsame⟩, hdelete⟩ := h
  obtain ⟨k, hk⟩ := List.mem_iff_getElem?.mp hc
  obtain ⟨c', hk', -, hentry⟩ := (move_step H s a).write_stays hk
  exact ⟨⟨c', List.mem_of_getElem? hk', hentry ▸ hsame⟩, hdelete⟩

lemma Cluster.Sketched.step {e : KVEntry I K V} (h : s.Sketched e) : (s.step H a).Sketched e := by
  obtain ⟨x, hx, hrest⟩ := h
  exact ⟨x, hx.step, hrest⟩

/-- What is stored stays a version of a client operation. -/
lemma genuine_step (h : s.Passes True s.Genuine s.Sketched) :
    (s.step H a).Passes True (s.step H a).Genuine (s.step H a).Sketched := by
  refine passes_step (passes_genuine _) (fun _ _ => trivial)
    (h.mono (fun _ he => he.step) fun _ he => he.step) ?_
  intro n key value tombstone t ha hcalls
  refine ⟨⟨.start n ((s.nodes n).newEntry key value tombstone t).2, ?_, rfl, rfl⟩, fun htrue => ?_⟩
  · rw [hcalls]
    exact List.mem_append_right _ (List.mem_singleton.mpr rfl)
  · rcases ha with ⟨-, hfalse⟩ | ⟨-, hvalue, -⟩
    · exact absurd (htrue.symm.trans hfalse) (by decide)
    · exact hvalue

/-- The invariants of runs without stand-ins, in every repair mode. -/
structure StrictInv (H : Hashing I K) (s : Cluster I K V) : Prop where
  strict : Strict s
  acks : AckInv H s
  versions : s.Passes True s.Genuine s.Sketched

/-- The invariants hold at first. -/
lemma strictInv_configured (H : Hashing I K) (set : I → Settings I) :
    StrictInv H (Cluster.configured H set false : Cluster I K V) := by
  refine ⟨⟨fun _ => rfl, fun _ => rfl⟩, ackInv_init fun _ _ => rfl, ?_⟩
  exact passes_init fun _ => ⟨fun _ => rfl, rfl, fun _ => rfl⟩

/-- Every step keeps the invariants. -/
lemma strictInv_step (h : StrictInv H s) : StrictInv H (s.step H a) := by
  have hmove := move_step H s a
  refine ⟨⟨fun n => ?_, fun n => ?_⟩, ackInv_move hmove h.strict h.acks, genuine_step h.versions⟩
  · exact (congrArg Config.id (hmove.nodeStep n).config).trans (h.strict.id n)
  · exact (congrArg Config.sloppy (hmove.nodeStep n).config).trans (h.strict.sloppy n)

end genuine

/-! ### What a successful write leaves -/

/-- A store has the version of an entry, or one that beats it. -/
def Keeps (store : Store I K V) (e : KVEntry I K V) : Prop :=
  ∃ x, store.getRaw e.key = some x ∧ (SameVersion x e ∨ e.stamp < x.stamp)

instance (store : Store I K V) (e : KVEntry I K V) : Decidable (Covers store e) :=
  decidable_of_iff (∃ x ∈ store.contents e.key, e.stamp ≤ x.stamp) Iff.rfl

/-- The replicas of the key of a write. -/
def Cluster.replicasOf (H : Hashing I K) (s : Cluster I K V) (c : WriteCall I K V) : Finset I :=
  ((s.nodes c.node).replicasFor H c.entry.key).toFinset

/-- The replicas that have a version which the entry of the write does not beat. -/
def Cluster.coveredBy (H : Hashing I K) (s : Cluster I K V) (c : WriteCall I K V) : Finset I :=
  (s.replicasOf H c).filter fun r => Covers (s.nodes r).store c.entry

section level

variable {H : Hashing I K} {s : Cluster I K V} {c : WriteCall I K V}

/-- A version that ties with an operation is that operation. -/
lemma Covers.keeps (hinv : StrictInv H s) (hstamps : StampInv s) (hc : .write c ∈ s.calls)
    {r : I} (h : Covers (s.nodes r).store c.entry) : Keeps (s.nodes r).store c.entry := by
  obtain ⟨x, hx, hle⟩ := h.getRaw
  refine ⟨x, hx, ?_⟩
  rcases hle.eq_or_lt with heq | hlt
  · left
    obtain ⟨⟨c', hc', hsame⟩, -⟩ := (hinv.versions.nodes r).store _ x hx
    rw [hstamps.distinct c c' hc hc' (heq.trans hsame.stamp)]
    exact hsame
  · exact .inr hlt

/-- **The guarantee of a level, without stand-ins**: when a write has succeeded, what its level
promises holds of the replicas of the key that have a version which the entry does not beat. While
the clocks that stamp operations are in their range, that is the version of the entry or one that
beats it. -/
theorem write_level_met (H : Hashing I K) (set : I → Settings I) (as : List (Action I K V))
    {c : WriteCall I K V}
    (hc : .write c ∈ (run (Cluster.step H) (Cluster.configured H set false) as).calls)
    (hok : c.result = some .ok) :
    let s := run (Cluster.step H) (Cluster.configured H set false) as
    LevelMet (s.nodes c.node) (s.coveredBy H c) (s.replicasOf H c) ∧
      (Along (Cluster.step H) (fun s a => s.stampsInRange a = true)
          (Cluster.configured H set false) as →
        ∀ r ∈ s.coveredBy H c, Keeps (s.nodes r).store c.entry) := by
  intro s
  have hinv : StrictInv H s :=
    run_invariant' (StrictInv H) (fun _ _ h => strictInv_step h) as (strictInv_configured H set)
  have hcall := hinv.acks.calls c hc
  constructor
  · have hsent : c.seqNo ≠ 0 := fun h0 => absurd ((hcall.fresh h0).2.symm.trans hok) (by simp)
    have hmet := hcall.quorum hok
    rw [(hcall.placed hsent).1] at hmet
    refine levelMet_of_writeQuorumMet hmet hcall.acked.1 fun r hr => Finset.mem_filter.mpr ?_
    obtain ⟨hreplica, hcovers⟩ := hcall.covers_counted hinv.strict.id hok hr
    exact ⟨List.mem_toFinset.mpr hreplica, hcovers⟩
  · intro hrange r hr
    have hcovers := (Finset.mem_filter.mp hr).2
    have hstamps : StrictInv H s ∧ StampInv s :=
      run_invariant (fun s => StrictInv H s ∧ StampInv s)
        (fun s a ha h => ⟨strictInv_step h.1,
          stampInv_move (move_step H s a) h.1.strict.id ha h.2⟩) hrange
        ⟨strictInv_configured H set, stampInv_init (fun _ => HLC.valid_new) rfl⟩
    exact hcovers.keeps hinv hstamps.2 hc

/-- Two nodes in regions of their own, at the level that asks every region. -/
private def twoRegions (_ : Bool) : Settings Bool :=
  { twoReplicas 1 with
    regions := fun n => if n then "east" else "west", consistencyLevel := .eachQuorum }

/-- A write that the other region acknowledges. -/
private def bothRegions : List (Action Bool Unit ℕ) :=
  [.write false () 7 1000000, .advance 0 (.go 1000000 []), .advance 0 (.go 1000000 []),
    .deliver 0 1000000, .deliver 0 1000000, .advance 0 (.go 2000000 [])]

/-- Both regions have the entry. -/
theorem write_level_met_each :
    let s := run (Cluster.step alternatingTokens) (Cluster.configured alternatingTokens twoRegions
      false) bothRegions
    ∃ c, .write c ∈ s.calls ∧ c.result = some .ok ∧
      LevelMet (s.nodes c.node) (s.coveredBy alternatingTokens c)
        (s.replicasOf alternatingTokens c) ∧
      ∀ r ∈ s.coveredBy alternatingTokens c, Keeps (s.nodes r).store c.entry := by
  have hrun : ∃ c ∈ (run (Cluster.step alternatingTokens) (Cluster.configured alternatingTokens
      twoRegions false) bothRegions).writeOf 0, c.result = some .ok := by
    decide +kernel
  obtain ⟨c, hc, hok⟩ := hrun
  have hmem := mem_calls_of_writeOf hc
  obtain ⟨hlevel, hkeeps⟩ := write_level_met alternatingTokens twoRegions bothRegions hmem hok
  exact ⟨c, hmem, hok, hlevel, hkeeps (by decide +kernel)⟩

end level

end Replication.Leaderless
