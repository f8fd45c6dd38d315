import Replication.MultiLeader.Clocks
import Replication.Simulation.Trees

/-!
# Multi leader · Reconcile: an anti-entropy pass and vector clocks

The pass of `RunAntiEntropy` writes the newest version of a key over the older ones as it is, clock
included, where a remote apply stores the join of the clocks. A node whose version is overwritten
by a concurrent one loses the component of its own operations, and numbers them again from there.

* `Cluster.antiEntropy` — the pass on a cluster, for the keys it finds and the iteration orders of
  its maps.
* `NewestDominates` — the condition under which no clock is set back, over the keys that the Merkle
  diff of two online nodes returns. No more is asked of the diff: a key that it misses is left
  alone.
-/

set_option linter.unusedSectionVars false

namespace Replication.MultiLeader

open Storage Conflict Node Clock Library Simulation

variable {I K σ : Type} [LinearOrder I] [DecidableEq K] [LinearOrder σ] [Inhabited σ]

/-- The stores of the nodes. -/
def Cluster.stores (s : Cluster I K σ) (n : I) : Store I K (Value σ) := (s.nodes n).store

/-- The nodes of `ids` that are online. -/
def Cluster.online (s : Cluster I K σ) (ids : List I) : List I :=
  ids.filter fun n => (s.nodes n).state = .online

/-- An anti-entropy pass over the nodes `ids` that finds the keys `ks` divergent. -/
def Cluster.antiEntropy (s : Cluster I K σ) (ids : List I) (order : K → List I) (ks : List K) :
    Cluster I K σ :=
  { s with
    nodes := fun n => { s.nodes n with
      store := runAntiEntropy s.stores (s.online ids) order ks n } }

/-- No two operations on a key have the same node and number. -/
def NoReuse (s : Cluster I K σ) : Prop :=
  s.writes.Pairwise fun w w' =>
    ¬ (w.key = w'.key ∧ w.nodeID = w'.nodeID ∧ opNumber w = opNumber w')

/-- The newest versions are above the versions they replace: for every key that the diff of two
online nodes returns, an online version that none beats has at least the clock of every online
version that it beats. -/
def NewestDominates (s : Cluster I K σ) (ids : List I) (diff : I → I → List K) : Prop :=
  ∀ ref ∈ s.online ids, ∀ other ∈ s.online ids, other ≠ ref → ∀ key ∈ diff ref other,
    ∀ i ∈ s.online ids, ∀ b, s.stored i key = some b → Unbeaten s.stores (s.online ids) key b →
      ∀ j ∈ s.online ids, ∀ e, s.stored j key = some e → e.stamp < b.stamp →
        e.vclock.count ≤ b.vclock.count

/-! ### Numbers -/

/-- **No step reuses a number** while clocks are not ahead of their owners. -/
theorem noReuse_step {s : Cluster I K σ} (hc : ClockInv s) (h : NoReuse s) (a : Action I K σ) :
    NoReuse (s.step a) := by
  unfold NoReuse
  rcases (step_storeStep s a).writes_or_put with hwrites | ⟨n, key, value, b, t, -, hwrites⟩
  · rw [hwrites]
    exact h
  · rw [hwrites, List.pairwise_append]
    refine ⟨h, List.pairwise_singleton _ _, fun w hw w' hw' => ?_⟩
    rw [List.mem_singleton.mp hw']
    rintro ⟨hkey, hnode, hnum⟩
    have hle := (hc.numbered w hw).2
    have hkey' : w.key = key := hkey
    rw [hnum, opNumber_putEntry hc.ids, hkey', hnode, putEntry_nodeID hc.ids] at hle
    exact absurd hle (Nat.not_succ_le_self _)

/-- No run reuses a number. -/
lemma noReuse_run {s : Cluster I K σ} (hc : ClockInv s) (h : NoReuse s)
    (as : List (Action I K σ)) : NoReuse (run Cluster.step s as) :=
  (run_invariant' (fun s => ClockInv s ∧ NoReuse s)
    (fun _ a hs => ⟨clockInv_step hs.1 a, noReuse_step hs.1 hs.2 a⟩) as ⟨hc, h⟩).2

/-! ### The pass -/

section pass

variable {s : Cluster I K σ} {ids : List I} {order : K → List I} {ks : List K}

/-- Versions are stored under their keys. -/
lemma ClockInv.keyEq (hc : ClockInv s) : KeyEq s.stores := hc.key_eq

/-- The clock, from what the store holds apart from version numbers. -/
lemma Cluster.clockOf_eq_contents (s : Cluster I K σ) (n : I) (key : K) :
    s.clockOf n key = ((s.stores n).contents key).elim 0 fun e => e.vclock.count := by
  have hdef : s.clockOf n key = (s.stored n key).elim 0 fun e => e.vclock.count := rfl
  have hcont : (s.stores n).contents key = (s.stored n key).map KVEntry.content := rfl
  rw [hdef, hcont]
  cases s.stored n key <;> rfl

/-- The stores after the pass. -/
lemma Cluster.stores_antiEntropy (s : Cluster I K σ) (ids : List I) (order : K → List I)
    (ks : List K) (n : I) : (s.antiEntropy ids order ks).stores n =
      runAntiEntropy s.stores (s.online ids) order ks n := rfl

/-- A pass leaves a key alone, or copies the newest version over a stale one. -/
lemma antiEntropy_contents (hc : ClockInv s) (hnd : ks.Nodup) (ids : List I) (order : K → List I)
    (n : I) (key : K) :
    ((s.antiEntropy ids order ks).stores n).contents key = (s.stores n).contents key ∨
      key ∈ ks ∧ n ∈ order key ∧ ∃ best, newestEntry s.stores (order key) key = some best ∧
        stale (s.stored n key) best = true ∧
        ((s.antiEntropy ids order ks).stores n).contents key = some best.content := by
  rw [Cluster.stores_antiEntropy]
  by_cases hlen : 2 ≤ (s.online ids).length
  · rw [runAntiEntropy_contents hc.keyEq hlen order hnd]
    split_ifs with hk
    · unfold reconciled
      cases hbest : newestEntry s.stores (order key) key with
      | none => exact .inl rfl
      | some best =>
        dsimp only
        split_ifs with hstale
        · exact .inr ⟨hk, hstale.1, best, rfl, hstale.2, rfl⟩
        · exact .inl rfl
    · exact .inl rfl
  · refine .inl ?_
    unfold runAntiEntropy
    rw [if_pos (by omega)]

/-- What is stored after a pass was stored somewhere before it. -/
lemma antiEntropy_stored (hc : ClockInv s) (hnd : ks.Nodup) {n : I} {key : K}
    {x : KVEntry I K (Value σ)} (hx : (s.antiEntropy ids order ks).stored n key = some x) :
    ∃ m y, s.stored m key = some y ∧ x.content = y.content := by
  have hxc : ((s.antiEntropy ids order ks).stores n).contents key = some x.content := by
    have hdef : ((s.antiEntropy ids order ks).stores n).contents key =
        ((s.antiEntropy ids order ks).stored n key).map KVEntry.content := rfl
    rw [hdef, hx]
    rfl
  rcases antiEntropy_contents hc hnd ids order n key with heq | ⟨-, -, best, hbest, -, heq⟩
  · rw [heq] at hxc
    obtain ⟨y, hy, hyc⟩ := Option.map_eq_some_iff.mp hxc
    exact ⟨n, y, hy, hyc.symm⟩
  · obtain ⟨⟨m, -, hm⟩, -⟩ := newestEntry_spec hbest
    rw [hxc, Option.some.injEq] at heq
    exact ⟨m, best, hm, heq⟩

/-- Equal contents have equal clocks -/
lemma content_vclock {x y : KVEntry I K (Value σ)} (h : x.content = y.content) :
    x.vclock = y.vclock := by
  have := congrArg KVEntry.vclock h
  exact this

/-- and equal keys. -/
lemma content_key {x y : KVEntry I K (Value σ)} (h : x.content = y.content) : x.key = y.key := by
  have := congrArg KVEntry.key h
  exact this

section

variable (hc : ClockInv s) (hnd : ks.Nodup)

include hc hnd

/-- **A pass that sets no clock back keeps the numbering of operations.** -/
theorem clockInv_antiEntropy
    (hle : ∀ n key, s.clockOf n key ≤ (s.antiEntropy ids order ks).clockOf n key) :
    ClockInv (s.antiEntropy ids order ks) := by
  have hown : ∀ n key, s.own n key ≤ (s.antiEntropy ids order ks).own n key :=
    fun n key => hle n key n
  -- every version of the new state has clock and key of an old one
  have hhas : ∀ x, (s.antiEntropy ids order ks).Has x →
      ∃ y, s.Has y ∧ x.vclock = y.vclock ∧ x.key = y.key := by
    rintro x (hx | ⟨n, key, hx⟩)
    · exact ⟨x, .inl hx, rfl, rfl⟩
    · obtain ⟨m, y, hy, heq⟩ := antiEntropy_stored hc hnd hx
      exact ⟨y, .inr ⟨m, key, hy⟩, content_vclock heq, content_key heq⟩
  refine ⟨hc.ids, fun n key x hx => ?_, fun x hx => ?_, fun x hx i => ?_, fun w hw => ?_, hc.unique⟩
  · obtain ⟨m, y, hy, heq⟩ := antiEntropy_stored hc hnd hx
    rw [content_key heq]
    exact hc.key_eq m key y hy
  · obtain ⟨y, hy, hclock, -⟩ := hhas x hx
    rw [hclock]
    exact hc.positive y hy
  · obtain ⟨y, hy, hclock, hkey⟩ := hhas x hx
    rw [hclock, hkey]
    exact (hc.bounded y hy i).trans (hown i y.key)
  · exact (hc.numbered w hw).imp_right fun h => h.trans (hown _ _)

end

section found

variable {diff : I → I → List K} {ref : I} (hc : ClockInv s)

include hc

/-- Nodes that are not online keep their clocks, and newest versions that dominate set none
back. -/
lemma clockOf_le_antiEntropy (hfound : Finds diff (s.online ids) ref ks)
    (horder : ∀ key, (order key).Perm (s.online ids)) (hdom : NewestDominates s ids diff) (n : I)
    (key : K) : s.clockOf n key ≤ (s.antiEntropy ids order ks).clockOf n key := by
  rw [s.clockOf_eq_contents, (s.antiEntropy ids order ks).clockOf_eq_contents]
  rcases antiEntropy_contents hc hfound.nodup ids order n key with
    heq | ⟨hk, hn, best, hbest, hstale, heq⟩
  · rw [heq]
  · obtain ⟨⟨i, hi, hib⟩, hunb⟩ := newestEntry_spec hbest
    rw [heq, ← s.clockOf_eq_contents]
    show s.clockOf n key ≤ best.vclock.count
    cases hs : s.stored n key with
    | none =>
      rw [Cluster.clockOf_of_none hs]
      exact fun _ => Nat.zero_le _
    | some e =>
      rw [hs] at hstale
      rw [Cluster.clockOf_eq hs]
      obtain ⟨other, hother, hne, hdiff⟩ := (hfound.mem_iff key).mp hk
      refine hdom ref hfound.ref_mem other hother hne key hdiff i ((horder key).mem_iff.mp hi) best
        hib ?_ n ((horder key).mem_iff.mp hn) e hs (beats_iff.mp hstale)
      exact fun j hj => hunb j ((horder key).mem_iff.mpr hj)

/-- If the pass sets no clock back in any order, the newest versions of the keys it finds
dominate. -/
lemma count_le_of_found (hfound : Finds diff (s.online ids) ref ks)
    (hle : ∀ order : K → List I, (∀ key, (order key).Perm (s.online ids)) →
      ∀ n ∈ s.online ids, ∀ key, s.clockOf n key ≤ (s.antiEntropy ids order ks).clockOf n key)
    {key : K} (hk : key ∈ ks) {i j : I} {b e : KVEntry I K (Value σ)} (hi : i ∈ s.online ids)
    (hib : s.stored i key = some b) (hunb : Unbeaten s.stores (s.online ids) key b)
    (hj : j ∈ s.online ids) (hje : s.stored j key = some e) (hlt : e.stamp < b.stamp) :
    e.vclock.count ≤ b.vclock.count := by
  -- the pass that meets the holder of `b` first takes `b` for the newest version
  have hperm : (i :: (s.online ids).erase i).Perm (s.online ids) :=
    (List.perm_cons_erase hi).symm
  have hdom := hle (fun _ => i :: (s.online ids).erase i) (fun _ => hperm) j hj key
  have hbest : newestEntry s.stores (i :: (s.online ids).erase i) key = some b :=
    newestEntry_of_head hib fun m hm => hunb m (List.mem_of_mem_erase hm)
  have hafter : ((s.antiEntropy ids (fun _ => i :: (s.online ids).erase i) ks).stores j).contents
      key = some b.content := by
    rw [Cluster.stores_antiEntropy,
      runAntiEntropy_contents hc.keyEq (hfound.two_le_length hk) _ hfound.nodup, if_pos hk]
    unfold reconciled
    rw [hbest]
    refine if_pos ⟨hperm.mem_iff.mpr hj, ?_⟩
    show stale (s.stored j key) b = true
    rw [hje]
    exact beats_iff.mpr hlt
  rw [(s.antiEntropy ids _ ks).clockOf_eq_contents, hafter, Cluster.clockOf_eq hje] at hdom
  exact hdom

end found

end pass

/-! ### Causality -/

/-- **An anti-entropy pass sets no clock back**, whatever the reference and the order in which it
meets the nodes, and no operation after it reuses a number, exactly if the newest versions of the
keys that the diffs return have the clocks of the versions they replace. The state is any that
operations and remote applies reach, and the diffs are those of the Merkle trees of the nodes, with
any digest and any text for a value. -/
theorem anti_entropy_keeps_clocks_iff (D : AntiEntropy.Digest) (text : Value σ → String)
    (keys : I → List String) (resolver : I → Resolver) (as : List (Action I String σ))
    (ids : List I) :
    let s := run Cluster.step (Cluster.init resolver) as
    (∀ ref ks, Finds (treeDiff D text s.stores keys) (s.online ids) ref ks →
      ∀ order : String → List I, (∀ key, (order key).Perm (s.online ids)) →
        (∀ n ∈ s.online ids, ∀ key,
          s.clockOf n key ≤ (s.antiEntropy ids order ks).clockOf n key) ∧
        ∀ bs, NoReuse (run Cluster.step (s.antiEntropy ids order ks) bs)) ↔
      NewestDominates s ids (treeDiff D text s.stores keys) := by
  intro s
  have hc : ClockInv s := clockInv_run (clockInv_init resolver) as
  have hfresh : NoReuse s := noReuse_run (clockInv_init resolver) List.Pairwise.nil as
  constructor
  · intro h ref href other hother hne key hdiff i hi b hib hunb j hj e hje hlt
    obtain ⟨ks, hfound⟩ := exists_finds (treeDiff D text s.stores keys) href
    exact count_le_of_found hc hfound (fun order horder => (h ref ks hfound order horder).1)
      ((hfound.mem_iff key).mpr ⟨other, hother, hne, hdiff⟩) hi hib hunb hj hje hlt
  · intro hdom ref ks hfound order horder
    have hle := clockOf_le_antiEntropy hc hfound horder hdom
    exact ⟨fun n _ key => hle n key,
      noReuse_run (clockInv_antiEntropy hc hfound.nodup hle) hfresh⟩

/-- Values of one byte in base64. -/
private def byteText : Value ℕ → String
  | .plain [1] => "AQ=="
  | .plain [2] => "Ag=="
  | _ => "Aw=="

/-- Two nodes with last writer wins after a run. -/
private abbrev after (as : List (Action Bool String ℕ)) : Cluster Bool String ℕ :=
  run Cluster.step (Cluster.init fun _ => .lww) as

/-- The nodes after a pass that repairs the key. -/
private abbrev afterPass (as : List (Action Bool String ℕ)) : Cluster Bool String ℕ :=
  (after as).antiEntropy [false, true] (fun _ => [false, true]) ["k"]

/-- One node writes, and the other writes after it has received the operation. -/
def causalRun : List (Action Bool String ℕ) :=
  [Action.write false "k" (.plain [1]) 5000000, .receive true 0 6000000,
    .write true "k" (.plain [2]) 7000000]

/-- The two values have different hashes, so that a pass finds the key. -/
private lemma mem_treeDiff_causal {i j : Bool} (hij : i ≠ j) (key : String) :
    key ∈ treeDiff (AntiEntropy.oneDigest "k=AQ==") byteText (after causalRun).stores
      (fun _ => ["k"]) i j ↔ key = "k" := by
  cases i <;> cases j
  · exact absurd rfl hij
  · exact mem_treeDiff_one (x := some (.plain [1])) (y := some (.plain [2])) (by decide +kernel)
      (by decide +kernel) (by decide) (by decide +kernel) key
  · exact mem_treeDiff_one (x := some (.plain [2])) (y := some (.plain [1])) (by decide +kernel)
      (by decide +kernel) (by decide) (by decide +kernel) key
  · exact absurd rfl hij

/-- A pass over the two nodes then sets no clock back. -/
theorem anti_entropy_keeps_clocks_iff_causal :
    (afterPass causalRun).own false "k" = 1 ∧
      (after causalRun).clockOf false "k" ≤ (afterPass causalRun).clockOf false "k" := by
  have hcheck : ∀ i j : Bool, ∀ b ∈ (after causalRun).stored i "k",
      ∀ e ∈ (after causalRun).stored j "k",
        beats b e = true → b.vclock.dominates e.vclock = true := by
    decide +kernel
  have honline : (after causalRun).online [false, true] = [false, true] := by decide +kernel
  have hfound : Finds (treeDiff (AntiEntropy.oneDigest "k=AQ==") byteText
      (after causalRun).stores fun _ => ["k"]) ((after causalRun).online [false, true]) true
      ["k"] := by
    rw [honline]
    refine ⟨by decide, by decide, fun key => ?_⟩
    simp [mem_treeDiff_causal]
  refine ⟨by decide +kernel, ((anti_entropy_keeps_clocks_iff (AntiEntropy.oneDigest "k=AQ==")
    byteText (fun _ => ["k"]) (fun _ => .lww) causalRun [false, true]).mpr ?_ true ["k"] hfound
      (fun _ => [false, true]) (fun _ => honline ▸ List.Perm.refl _)).1 false (by decide +kernel)
      "k"⟩
  intro ref _ other _ hne key hkey i _ b hb _ j _ e he hlt
  obtain rfl := (mem_treeDiff_causal hne.symm key).mp hkey
  exact VectorClock.dominates_iff.mp (hcheck i j b hb e he (beats_iff.mpr hlt))

/-- One node writes twice, and the other writes once after that, with no delivery in between. -/
def rewindRun : List (Action Bool String ℕ) :=
  [Action.write false "k" (.plain [1]) 5000000, .write false "k" (.plain [2]) 6000000,
    .write true "k" (.plain [3]) 7000000]

/-- For every digest that tells the two leaf texts apart, a pass over the two nodes finds the key.
It sets the clock of the first node back to nothing, and the next operation of that node has the
number of its first one. -/
theorem pass_rewinds_clock :
    (∀ D : AntiEntropy.Digest, D.hash "k=Ag==" ≠ D.hash "k=Aw==" →
      Finds (treeDiff D byteText (after rewindRun).stores fun _ => ["k"])
        ((after rewindRun).online [false, true]) false ["k"]) ∧
    (after rewindRun).own false "k" = 2 ∧ (afterPass rewindRun).own false "k" = 0 ∧
    ¬ NoReuse (run Cluster.step (afterPass rewindRun)
      [.write false "k" (.plain [4]) 8000000]) := by
  refine ⟨fun D hD => ?_, by decide +kernel, by decide +kernel, ?_⟩
  · have hmem : ∀ key, key ∈ treeDiff D byteText (after rewindRun).stores (fun _ => ["k"])
        false true ↔ key = "k" :=
      mem_treeDiff_one (x := some (.plain [2])) (y := some (.plain [3])) (by decide +kernel)
        (by decide +kernel) (by decide) hD
    have honline : (after rewindRun).online [false, true] = [false, true] := by decide +kernel
    rw [honline]
    refine ⟨by decide, by decide, fun key => ?_⟩
    simp [hmem]
  · unfold NoReuse
    decide +kernel

end Replication.MultiLeader
