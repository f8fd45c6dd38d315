import Replication.Leaderless.Levels
import Replication.Simulation.Sweep

/-!
# Leaderless · LocalWrites: coordinators and their own operations

A coordinator stamps a client operation by its hybrid clock, and applies it to its own store in a
later section, where the newer version wins.

* `Operation`, `Cluster.operate` — a cluster with the phases of `SafeAddNode`; passes are scans.
-/

set_option linter.unusedSectionVars false

namespace Replication.Leaderless

open Storage Node Clock Library Simulation Function
open HashRing (Hashing)

variable {I K V : Type} [LinearOrder I] [DecidableEq K] [Inhabited V] [DecidableEq V]
  {c : WriteCall I K V} {e w : KVEntry I K V} {msgs : List (Message I K V)} {H : Hashing I K}
  {s : Cluster I K V} {a : Action I K V}

/-! ### Reconfigurations -/

/-- One step of a cluster that is reconfigured while it runs. -/
inductive Operation (I K V : Type) where
  | base (a : Action I K V)
  /-- Phase 1 of `SafeAddNode`: a new node, and the new membership at all nodes. -/
  | join (id : I) (q : QuorumConfig) (ids : List I)
  /-- Phase 3 of `SafeAddNode`: the new quorum at all nodes. -/
  | updateQuorum (q : QuorumConfig)
  /-- `pushRegions`. -/
  | setRegions (regions : I → String)

/-- One step. Phase 2 of `SafeAddNode` is an anti-entropy pass. Source: `membership.go`
`SafeAddNode`. -/
def Cluster.operate (H : Hashing I K) (s : Cluster I K V) : Operation I K V → Cluster I K V
  | .base a => s.step H a
  | .join id q ids =>
    let nn := (LeaderlessNode.new H id q).setAllNodes H ids
    { s with nodes := Function.update (fun n => (s.nodes n).setAllNodes H ids) id nn }
  | .updateQuorum q => { s with nodes := fun n => (s.nodes n).updateQuorum q }
  | .setRegions regions => { s with nodes := fun n => (s.nodes n).setRegions regions }

/-- How a pass sees a leaderless cluster. -/
def Cluster.view : Replicas (Cluster I K V) I K V where
  hlc s n := (s.nodes n).hlc
  store s n := (s.nodes n).store
  set s n e := s.setNode n { s.nodes n with store := (s.nodes n).store.set e }
  hlc_set s n e := by
    funext m
    show (Function.update s.nodes n _ m).hlc = _
    rw [Function.update_apply]
    split_ifs with hm
    · rw [hm]
    · rfl
  store_set s n e := by
    funext m
    show (Function.update s.nodes n _ m).store = _
    rw [Function.update_apply, Function.update_apply]
    split_ifs <;> rfl

/-- One step of a cluster with reconfigurations and passes. -/
def sweptStep (H : Hashing I K) (s : Swept (Cluster I K V) I K V)
    (a : SweepAction (Operation I K V) I K) : Swept (Cluster I K V) I K V :=
  s.step Cluster.view (Cluster.operate H) a

/-- Clocks that stamp are in range. -/
def Cluster.operatesInRange (s : Cluster I K V) : Operation I K V → Bool
  | .base a => s.stampsInRange a
  | _ => true

/-- Clocks that stamp are in range, and a pass copies to a node no stamp above its clock. -/
def keepsUp (s : Swept (Cluster I K V) I K V) (a : SweepAction (Operation I K V) I K) : Bool :=
  s.keepsUp Cluster.view Cluster.operatesInRange a

/-- The coordinator and the entry of a client operation that is accepted. -/
def Cluster.accepts (s : Cluster I K V) : Action I K V → Option (I × KVEntry I K V)
  | .write n key value t =>
    if (s.nodes n).state.isPaused then none
    else some (n, ((s.nodes n).newEntry key value false t).2)
  | .delete n key t =>
    if (s.nodes n).state.isPaused then none
    else some (n, ((s.nodes n).newEntry key default true t).2)
  | _ => none

/-- An accepted operation is stamped above what its coordinator stores. -/
def Outstamps (s : Swept (Cluster I K V) I K V) : SweepAction (Operation I K V) I K → Prop
  | .base (.base a) => ∀ p ∈ s.cluster.accepts a,
      ∀ x ∈ (s.cluster.nodes p.1).store.data p.2.key, x.timestamp < p.2.timestamp
  | _ => True

/-! ### What a step stores -/

/-- An apply stores the entry or nothing. -/
lemma store_applyWrite (n : LeaderlessNode I K V) (e : KVEntry I K V) (t : ℤ) :
    (n.applyWrite e t).store = n.store ∨ (n.applyWrite e t).store = n.store.set e := by
  dsimp only [LeaderlessNode.applyWrite]
  split
  · exact .inr rfl
  · split_ifs
    · exact .inr rfl
    · exact .inl rfl

/-- **What a step stores** at a node: nothing, or the version it applies there. -/
theorem store_step (H : Hashing I K) (s : Cluster I K V) (a : Action I K V) (m : I) :
    ((s.step H a).nodes m).store = (s.nodes m).store ∨
      ∃ e, s.incoming a = some (m, e) ∧ ((s.step H a).nodes m).store = (s.nodes m).store.set e := by
  rcases ((move_step H s a).nodeStep m).data with ⟨hstore, -⟩ | ⟨e, t, he, hstore, -⟩ |
    ⟨t, -, hstore, -⟩
  · exact .inl hstore
  · rw [hstore]
    exact (store_applyWrite (s.nodes m) e t).imp_right fun h => ⟨e, he, h⟩
  · exact .inl hstore

/-! ### Clocks stay ahead -/

/-- **A step keeps clocks ahead of stores**: what is applied is merged into the clock first. -/
theorem ahead_step (hr : s.stampsInRange a = true) (h : Cluster.view.Ahead s) :
    Cluster.view.Ahead (s.step H a) := by
  intro m
  have hnode := (move_step H s a).nodeStep m
  have hadv := hnode.advances hr (h m).valid
  have hahead : Ahead ((s.step H a).nodes m).hlc (s.nodes m).store := (h m).advance hadv
  show Ahead ((s.step H a).nodes m).hlc ((s.step H a).nodes m).store
  rcases hnode.data with ⟨hstore, -⟩ | ⟨e, t, -, hstore, hhlc⟩ | ⟨t, -, hstore, -⟩
  · rw [hstore]
    exact hahead
  · rw [hstore]
    rcases store_applyWrite (s.nodes m) e t with heq | heq
    · rw [heq]
      exact hahead
    rw [heq]
    refine hahead.set ?_
    rw [hhlc]
    exact (HLC.update_spec (h m).valid e.timestamp).2.2.le
  · rw [hstore]
    exact hahead

/-- Reconfigurations keep clocks ahead of stores. -/
lemma ahead_operate (s : Cluster I K V) (op : Operation I K V)
    (hr : s.operatesInRange op = true) (h : Cluster.view.Ahead s) :
    Cluster.view.Ahead (s.operate H op) := by
  cases op with
  | base => exact ahead_step hr h
  | join =>
    intro m
    simp only [Cluster.operate, Cluster.view, update_apply]
    split_ifs
    · exact ahead_new
    · exact h m
  | updateQuorum | setRegions => exact h

/-- Stores are empty at first. -/
lemma ahead_configured (H : Hashing I K) (set : I → Settings I) (sloppy : Bool) :
    Cluster.view.Ahead (Cluster.configured H set sloppy : Cluster I K V) :=
  fun _ => ahead_new

/-- An accepted operation is one of a node that is up. -/
lemma accepts_eq_some {n : I} (h : s.accepts a = some (n, e)) :
    ∃ key value b t, a.IsPut n key value b t ∧ (s.nodes n).state.isPaused = false ∧
      e = ((s.nodes n).newEntry key value b t).2 := by
  cases a with
  | write m key value t =>
    simp only [Cluster.accepts, Option.ite_none_left_eq_some, Option.some.injEq, Prod.mk.injEq] at h
    obtain ⟨hup, rfl, rfl⟩ := h
    exact ⟨key, value, false, t, .inl ⟨rfl, rfl⟩, Bool.not_eq_true _ ▸ hup, rfl⟩
  | delete m key t =>
    simp only [Cluster.accepts, Option.ite_none_left_eq_some, Option.some.injEq, Prod.mk.injEq] at h
    obtain ⟨hup, rfl, rfl⟩ := h
    exact ⟨key, default, true, t, .inr ⟨rfl, rfl, rfl⟩, Bool.not_eq_true _ ▸ hup, rfl⟩
  | _ => cases h

/-- A new operation is stamped above what its coordinator stores. -/
lemma timestamp_lt_newEntry (h : Cluster.view.Ahead s) (hr : s.stampsInRange a = true) {n : I}
    {key : K} {value : V} {b : Bool} {t : ℤ} (ha : a.IsPut n key value b t) {k : K}
    {x : KVEntry I K V} (hx : (s.nodes n).store.data k = some x) :
    x.timestamp < ((s.nodes n).newEntry key value b t).2.timestamp :=
  (h n).lt_now (Cluster.inRange_of_isPut ha hr) hx

/-- **Accepted operations beat what is stored**, in every run that keeps up. -/
theorem outstamps_run (H : Hashing I K) (set : I → Settings I) (sloppy : Bool)
    {as : List (SweepAction (Operation I K V) I K)}
    (h : Along (sweptStep H) (fun s a => keepsUp s a = true)
      ⟨Cluster.configured H set sloppy, []⟩ as) :
    Along (sweptStep H) Outstamps ⟨Cluster.configured H set sloppy, []⟩ as := by
  refine along_of_invariant (fun s => Cluster.view.Ahead s.cluster) (fun s a hup hs => ?_)
    (fun s a hup hs => ?_) h (ahead_configured H set sloppy)
  · exact Swept.keepsUp_step ahead_operate (fun c i e he hc => hc.set he) s a hup hs
  · unfold Outstamps
    split
    case h_1 a _ =>
      rintro ⟨n, e⟩ hp x hx
      obtain ⟨key, value, b, t, ha, -, rfl⟩ := accepts_eq_some hp
      exact timestamp_lt_newEntry hs hup ha hx
    case h_2 => trivial

/-! ### The coordinator's apply -/

/-- The operations that are stamped and not yet applied. -/
def Cluster.unapplied (s : Cluster I K V) : List (WriteCall I K V) :=
  s.calls.filterMap fun call =>
    match call with
    | .write c => if c.stage = .apply then some c else none
    | .read _ => none

/-- An operation waits before its coordinator's apply. -/
lemma mem_unapplied :
    c ∈ s.unapplied ↔ .write c ∈ s.calls ∧ c.stage = .apply := by
  unfold Cluster.unapplied
  rw [List.mem_filterMap]
  constructor
  · rintro ⟨call, hmem, hcall⟩
    cases call with
    | write =>
      simp only [Option.ite_none_right_eq_some, Option.some.injEq] at hcall
      obtain ⟨hstage, rfl⟩ := hcall
      exact ⟨hmem, hstage⟩
    | read => cases hcall
  · rintro ⟨hmem, hstage⟩
    exact ⟨.write c, hmem, if_pos hstage⟩

/-- A version does not beat the operations on its key that are waiting at a node. -/
def Cluster.yields (s : Cluster I K V) (n : I) (e : KVEntry I K V) : Bool :=
  ∀ c ∈ s.unapplied, c.node = n → c.entry.key = e.key → c.entry = e ∨ entryWins c.entry e = true

/-- No version that beats a stamped operation is stored by its coordinator before it. -/
def unraced (s : Swept (Cluster I K V) I K V) : SweepAction (Operation I K V) I K → Bool
  | .base (.base a) => ∀ p ∈ s.cluster.incoming a, s.cluster.yields p.1 p.2 = true
  | .repair p i => ∀ best ∈ s.copy Cluster.view p i, s.cluster.yields i best = true
  | _ => true

/-- A coordinator that applies its operation stores it. -/
def StoresOwn (H : Hashing I K) (s : Swept (Cluster I K V) I K V) :
    SweepAction (Operation I K V) I K → Prop
  | .base (.base (.advance i (.go t targets))) => ∀ c ∈ s.cluster.writeOf i, c.stage = .apply →
      ((s.cluster.step H (.advance i (.go t targets))).nodes c.node).store.contents c.entry.key =
        some c.entry.content
  | _ => True

/-- What a store shows under the key of an operation is the operation, or is beaten by it. -/
def Waits (store : Store I K V) (w : KVEntry I K V) : Prop :=
  ∀ x, store.contents w.key = some x → x = w.content ∨ x.stamp < w.stamp

/-- Clocks are ahead of stores, and operations beat what is there until they are applied. -/
structure LocalInv (s : Cluster I K V) : Prop where
  ahead : Cluster.view.Ahead s
  waits : ∀ c ∈ s.unapplied, Waits (s.nodes c.node).store c.entry

/-- An operation goes on to wait when a version it beats is stored. -/
lemma Waits.set {store : Store I K V} (h : Waits store w)
    (hwe : w.key = e.key → w = e ∨ entryWins w e = true) : Waits (store.set e) w := by
  intro x hx
  rw [contents_set] at hx
  by_cases hkey : w.key = e.key
  · rw [hkey, update_self, Option.some.injEq] at hx
    subst hx
    rcases hwe hkey with rfl | hwins
    · exact .inl rfl
    · exact .inr (entryWins_iff.mp hwins)
  · rw [update_of_ne hkey] at hx
    exact h x hx

/-- An operation that is later than what is stored waits. -/
lemma waits_of_timestamp_lt {store : Store I K V}
    (h : ∀ x, store.data w.key = some x → x.timestamp < w.timestamp) : Waits store w := by
  intro x hx
  rw [Store.contents_eq_map] at hx
  obtain ⟨y, hy, rfl⟩ := Option.map_eq_some_iff.mp hx
  exact .inr (KVEntry.stamp_lt_iff.mpr (.inl (h y hy)))

/-- **An operation that beats what is there is stored.** -/
theorem Waits.applyWrite {n : LeaderlessNode I K V} (h : Waits n.store w) (t : ℤ) :
    (n.applyWrite w t).store.contents w.key = some w.content := by
  rw [applyWrite_contents, update_self]
  unfold winner
  cases hx : n.store.data w.key with
  | none => rfl
  | some x =>
    dsimp only
    split_ifs with hlt
    · rfl
    have hcontents : n.store.contents w.key = some x.content := by
      rw [Store.contents_eq_map, hx]
      rfl
    rcases h x.content hcontents with heq | hlt'
    · rw [heq]
    · exact absurd hlt' hlt

lemma yields_of_mem {n : I} (h : s.yields n e = true) (hc : c ∈ s.unapplied) (hn : c.node = n)
    (hkey : c.entry.key = e.key) : c.entry = e ∨ entryWins c.entry e = true :=
  of_decide_eq_true h c hc hn hkey

/-- A write that is not applied yet has not moved. -/
lemma WriteStep.of_apply {c' : WriteCall I K V} {n n' : LeaderlessNode I K V}
    (h : WriteStep H c n n' c' msgs) (hstage : c'.stage = .apply) : c' = c := by
  cases h with
  | idle => rfl
  | apply | send | close | hints => cases hstage
  | wait n₁ acked stage result msgs _ _ hstage' =>
    obtain rfl : stage = .apply := hstage
    rcases hstage' with h | h | h <;> cases h

/-- A waiting operation was waiting or is new. -/
lemma unapplied_step (hc : c ∈ (s.step H a).unapplied) :
    c ∈ s.unapplied ∨ ∃ n key value b t, a.IsPut n key value b t ∧
      c = .start n ((s.nodes n).newEntry key value b t).2 ∧
      (s.step H a).nodes n = ((s.nodes n).newEntry key value b t).1 := by
  obtain ⟨hmem, hstage⟩ := mem_unapplied.mp hc
  obtain ⟨k, hk⟩ := List.mem_iff_getElem?.mp hmem
  cases (move_step H s a).origin hk with
  | old _ hold => exact .inl (mem_unapplied.mpr ⟨List.mem_of_getElem? hold, hstage⟩)
  | write c₀ _ msgs hold hmove =>
    obtain rfl := hmove.of_apply hstage
    exact .inl (mem_unapplied.mpr ⟨List.mem_of_getElem? hold, hstage⟩)
  | put n key value b t ha hnode => exact .inr ⟨n, key, value, b, t, ha, rfl, hnode⟩

/-- **A step without a race** keeps operations ahead until they are applied. -/
theorem localInv_step (hr : s.stampsInRange a = true)
    (hrace : ∀ p ∈ s.incoming a, s.yields p.1 p.2 = true) (h : LocalInv s) :
    LocalInv (s.step H a) := by
  refine ⟨ahead_step hr h.ahead, fun c hc => ?_⟩
  rcases unapplied_step hc with hold | ⟨n, key, value, b, t, ha, rfl, hnode⟩
  · rcases store_step H s a c.node with hstore | ⟨e, he, hstore⟩
    · rw [hstore]
      exact h.waits c hold
    · rw [hstore]
      exact (h.waits c hold).set (yields_of_mem (hrace (c.node, e) he) hold rfl)
  · show Waits ((s.step H a).nodes n).store _
    rw [hnode]
    exact waits_of_timestamp_lt fun x hx => timestamp_lt_newEntry h.ahead hr ha hx

/-- Reconfigurations keep the invariant. -/
lemma localInv_operate {op : Operation I K V} (hr : s.operatesInRange op = true)
    (hrace : ∀ a, op = .base a → ∀ p ∈ s.incoming a, s.yields p.1 p.2 = true) (h : LocalInv s) :
    LocalInv (s.operate H op) := by
  cases op with
  | base a => exact localInv_step hr (hrace a rfl) h
  | join id q ids =>
    refine ⟨ahead_operate s (.join id q ids) rfl h.ahead, fun c hc => ?_⟩
    simp only [Cluster.operate, update_apply]
    split_ifs
    · intro x hx
      cases hx
    · exact h.waits c hc
  | updateQuorum q => exact ⟨ahead_operate s (.updateQuorum q) rfl h.ahead, h.waits⟩
  | setRegions regions => exact ⟨ahead_operate s (.setRegions regions) rfl h.ahead, h.waits⟩

/-- A copy of a pass keeps the invariant. -/
lemma LocalInv.set (h : LocalInv s) {i : I} (he : e.timestamp ≤ (s.nodes i).hlc.value)
    (hyields : s.yields i e = true) : LocalInv (Cluster.view.set s i e) := by
  refine ⟨h.ahead.set he, fun c hc => ?_⟩
  show Waits (update s.nodes i _ c.node).store c.entry
  by_cases hnode : c.node = i
  · subst hnode
    rw [update_self]
    exact (h.waits c hc).set (yields_of_mem hyields hc rfl)
  · rw [update_of_ne hnode]
    exact h.waits c hc

/-- Every step with passes keeps the invariant. -/
lemma localInv_swept (s : Swept (Cluster I K V) I K V)
    (a : SweepAction (Operation I K V) I K) (h : keepsUp s a = true ∧ unraced s a = true)
    (hs : LocalInv s.cluster) : LocalInv (sweptStep H s a).cluster := by
  obtain ⟨hup, hrace⟩ := h
  refine s.inv_step Cluster.view (Cluster.operate H) (fun op hop => ?_)
    (fun p i best ha hbest => ?_) hs
  · subst hop
    refine localInv_operate hup (fun a ha => ?_) hs
    subst ha
    exact of_decide_eq_true hrace
  · subst ha
    exact hs.set (of_decide_eq_true hup best hbest) (of_decide_eq_true hrace best hbest)

/-- **Coordinators store what they accept**, in every run that keeps up and has no races. -/
theorem storesOwn_run (H : Hashing I K) (set : I → Settings I) (sloppy : Bool)
    {as : List (SweepAction (Operation I K V) I K)}
    (h : Along (sweptStep H) (fun s a => keepsUp s a = true ∧ unraced s a = true)
      ⟨Cluster.configured H set sloppy, []⟩ as) :
    Along (sweptStep H) (StoresOwn H) ⟨Cluster.configured H set sloppy, []⟩ as := by
  refine along_of_invariant (fun s => LocalInv s.cluster) localInv_swept (fun s a _ hs => ?_) h
    ⟨ahead_configured H set sloppy, nofun⟩
  unfold StoresOwn
  split
  case h_1 i t targets _ =>
    intro c hc hstage
    have hwaits := hs.waits c (mem_unapplied.mpr ⟨mem_calls_of_writeOf hc, hstage⟩)
    have hi := calls_of_writeOf hc
    simp only [Cluster.step, hi, WriteCall.advance, hstage, update_self]
    exact hwaits.applyWrite t
  case h_2 => trivial

end Replication.Leaderless
