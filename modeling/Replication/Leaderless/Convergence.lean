import Mathlib.Data.Finset.Max
import Replication.Conflict.Merge
import Replication.Leaderless.Node
import Replication.Simulation.AntiEntropy

/-!
# Leaderless · Convergence: one winner for every order of delivery

The last-write-wins store, the two resolvers and the anti-entropy pass compare versions in code of
their own. All of them order versions by their stamp.
-/

set_option linter.unusedSectionVars false

namespace Replication.Leaderless

open Storage Conflict Simulation Library Function List
open Clock

variable {I K V σ : Type} [LinearOrder I] [DecidableEq K] [Inhabited V] [LinearOrder σ]
  [Inhabited σ]

/-! ### Applies -/

/-- Apply versions one after the other, each with a wall reading. -/
def LeaderlessNode.applyWrites (n : LeaderlessNode I K V) (ws : List (KVEntry I K V × ℤ)) :
    LeaderlessNode I K V :=
  ws.foldl (fun n w => n.applyWrite w.1 w.2) n

/-- What an apply leaves under its key. -/
lemma applyWrite_contents_key (n : LeaderlessNode I K V) (e : KVEntry I K V) (t : ℤ) :
    (n.applyWrite e t).store.contents e.key =
      match n.store.contents e.key with
      | none => some e.content
      | some c => if c.stamp < e.stamp then some e.content else some c := by
  rw [applyWrite_contents, update_self, Store.contents_eq_map]
  cases n.store.data e.key with
  | none => rfl
  | some =>
    dsimp only [winner, Option.map_some]
    rw [stamp_content, apply_ite KVEntry.content, apply_ite some]

/-- **A sequence of applies keeps the first version with the largest stamp.** -/
theorem applyWrites_contents {n : LeaderlessNode I K V} {key : K} {ws : List (KVEntry I K V × ℤ)}
    (hempty : n.store.contents key = none) (hkey : ∀ w ∈ ws, w.1.key = key) :
    (n.applyWrites ws).store.contents =
      update n.store.contents key
        (((ws.map Prod.fst).argmax KVEntry.stamp).map KVEntry.content) := by
  induction ws using List.reverseRecOn with
  | nil => exact (Function.update_eq_self_iff.mpr hempty.symm).symm
  | append_singleton ws w ih =>
    have ih := ih fun w' hw' => hkey w' (mem_append_left [w] hw')
    obtain rfl : w.1.key = key := hkey w (mem_append_right ws mem_cons_self)
    have hstep : n.applyWrites (ws ++ [w]) = (n.applyWrites ws).applyWrite w.1 w.2 :=
      foldl_append
    funext k
    by_cases hk : k = w.1.key
    · subst hk
      rw [hstep, applyWrite_contents_key, ih, update_self, update_self,
        map_append, map_singleton, argmax_concat]
      cases (ws.map Prod.fst).argmax KVEntry.stamp with
      | none => rfl
      | some =>
        dsimp only [Option.map_some]
        rw [stamp_content, apply_ite (Option.map KVEntry.content)]
        rfl
    · rw [hstep, applyWrite_contents, update_of_ne hk, ih, update_of_ne hk, update_of_ne hk]

/-! ### Resolvers -/

/-- A conflict between two versions, in either role. -/
def Between (c : Conflict I K V) (a b : KVEntry I K V) : Prop :=
  c.localEntry = a ∧ c.remoteEntry = b ∨ c.localEntry = b ∧ c.remoteEntry = a

/-- A resolver that returns the version with the larger stamp selects. -/
lemma selects_resolver {S : Set (KVEntry I K V)} {resolve : Conflict I K V → Resolution I K V}
    {pair : KVEntry I K V → KVEntry I K V → Conflict I K V} (hpair : ∀ a b, Between (pair a b) a b)
    (hresolve : ∀ c, c.localEntry ∈ S → c.remoteEntry ∈ S → (resolve c).winner =
      if c.localEntry.stamp < c.remoteEntry.stamp then c.remoteEntry else c.localEntry) :
    Selects KVEntry.stamp S fun a b => (resolve (pair a b)).winner := by
  constructor <;> intro a ha b hb <;>
    rcases hpair a b with ⟨hl, hr⟩ | ⟨hl, hr⟩ <;>
    rw [hresolve _ (by rwa [hl]) (by rwa [hr]), hl, hr] <;> split_ifs with hlt
  all_goals first
    | assumption
    | exact le_rfl
    | exact hlt.le
    | exact not_lt.mp hlt

/-- **One winner.** Versions of a key with distinct stamps have a greatest one, and whatever the
order and the repetitions, it is what a replica without the key ends up with when it applies them,
what folding them through the last-write-wins resolver or, without documents, through the CRDT
resolver returns, and what the anti-entropy pass selects among replicas that hold them. -/
theorem replica_convergence (key : K) (S : Finset (KVEntry I K (Value σ))) (hne : S.Nonempty)
    (hkey : ∀ e ∈ S, e.key = key)
    (hdistinct : (S : Set (KVEntry I K (Value σ))).InjOn KVEntry.stamp) :
    ∃ g ∈ S, (∀ e ∈ S, e.stamp ≤ g.stamp) ∧
      (∀ (n : LeaderlessNode I K (Value σ)) (ws : List (KVEntry I K (Value σ) × ℤ)),
        n.store.contents key = none → (∀ e, e ∈ ws.map Prod.fst ↔ e ∈ S) →
        (n.applyWrites ws).store.contents =
          Function.update n.store.contents key (some g.content)) ∧
      (∀ pair : KVEntry I K (Value σ) → KVEntry I K (Value σ) → Conflict I K (Value σ),
        (∀ a b, Between (pair a b) a b) → ∀ e es, (∀ x, x ∈ e :: es ↔ x ∈ S) →
        es.foldl (fun a b => (lwwResolve (pair a b)).winner) e = g ∧
        ((∀ x ∈ S, x.value.mergeType = none) →
          es.foldl (fun a b => (crdtResolve (pair a b)).winner) e = g)) ∧
      ∀ (stores : I → Store I K (Value σ)) (order : List I),
        (∀ c, (∃ i ∈ order, (stores i).contents key = some c) ↔ ∃ e ∈ S, e.content = c) →
        (newestEntry stores order key).map KVEntry.content = some g.content := by
  obtain ⟨g, hg, hle⟩ := S.exists_max_image KVEntry.stamp hne
  refine ⟨g, hg, hle, fun n ws hempty hws => ?_, fun pair hpair e es hes => ⟨?_, fun hplain => ?_⟩,
    fun stores order hheld => ?_⟩
  · have hmem : ∀ w ∈ ws, w.1 ∈ S := fun w hw => (hws w.1).mp (mem_map_of_mem hw)
    rw [applyWrites_contents hempty fun w hw => hkey w.1 (hmem w hw),
      argmax_eq_some ((hws g).mpr hg) (fun a ha => hle a ((hws a).mp ha)) fun a ha heq =>
        hdistinct ((hws a).mp ha) hg heq]
    rfl
  · exact (selects_resolver (S := (S : Set _)) hpair fun c _ _ => lwwResolve_winner c).foldl_eq
      hdistinct hg hle hes
  · refine (selects_resolver (S := (S : Set _)) hpair fun c hl _ => ?_).foldl_eq
      hdistinct hg hle hes
    exact crdtResolve_winner_of_none c (mergeCRDT_eq_none (hplain _ hl))
  · -- the replica that holds the winner has a version, so there is a newest one
    obtain ⟨i, hi, hgi⟩ := (hheld g.content).mpr ⟨g, hg, rfl⟩
    rw [Store.contents_eq_map] at hgi
    obtain ⟨x, hx, hxg⟩ := Option.map_eq_some_iff.mp hgi
    obtain ⟨b, hb⟩ := exists_newestEntry hi hx
    obtain ⟨⟨j, hj, hbj⟩, hunb⟩ := newestEntry_spec hb
    have hbheld : (stores j).contents key = some b.content := by
      rw [Store.contents_eq_map, hbj, Option.map_some]
    obtain ⟨e, he, heb⟩ := (hheld b.content).mp ⟨j, hj, hbheld⟩
    have hge : g.stamp ≤ e.stamp := by
      rw [← stamp_eq_of_content hxg, stamp_eq_of_content heb]
      exact hunb i hi x hx
    rw [hb, Option.map_some, ← heb, hdistinct he hg (le_antisymm (hle e he) hge)]

/-- Two writes of a key, at nodes `false` and `true`. -/
private def writeAt (node : Bool) : KVEntry Bool Unit (Value ℕ) where
  key := ()
  value := .plain [if node then 1 else 0]
  vclock := .single node 1
  timestamp := 7
  nodeID := node
  tombstone := false
  version := 0

/-- The two writes. -/
private def bothWrites : Finset (KVEntry Bool Unit (Value ℕ)) :=
  Finset.cons (writeAt true) {writeAt false} fun h => by
    cases congrArg KVEntry.nodeID (Finset.mem_singleton.mp h)

/-- Writes with the same timestamp, applied in two orders. -/
theorem replica_convergence_tie : ∃ g ∈ bothWrites,
    ((LeaderlessNode.new ⟨fun _ _ => 0, fun _ => 0⟩ true ⟨1, 1, 1⟩).applyWrites
        [(writeAt true, 5), (writeAt false, 3), (writeAt true, 9)]).store.contents () =
      some g.content ∧
    ((LeaderlessNode.new ⟨fun _ _ => 0, fun _ => 0⟩ true ⟨1, 1, 1⟩).applyWrites
        [(writeAt false, 4), (writeAt true, 4)]).store.contents () = some g.content := by
  have hmem : ∀ e, e ∈ bothWrites ↔ e = writeAt true ∨ e = writeAt false := fun e => by
    rw [bothWrites, Finset.mem_cons, Finset.mem_singleton]
  obtain ⟨g, hg, -, happly, -⟩ := replica_convergence () bothWrites
    ⟨writeAt true, (hmem _).mpr (.inl rfl)⟩ (fun _ _ => rfl) (by
      intro a ha b hb hab
      have hnode := (KVEntry.stamp_eq_iff.mp hab).2
      rcases (hmem a).mp ha with rfl | rfl <;> rcases (hmem b).mp hb with rfl | rfl
      · rfl
      · cases hnode
      · cases hnode
      · rfl)
  refine ⟨g, hg, ?_, ?_⟩
  · rw [happly _ _ rfl fun e => ?_, update_self]
    simp only [map_cons, map_nil, mem_cons, not_mem_nil, or_false, hmem]
    tauto
  · rw [happly _ _ rfl fun e => ?_, update_self]
    simp only [map_cons, map_nil, mem_cons, not_mem_nil, or_false, hmem]
    exact or_comm

end Replication.Leaderless
