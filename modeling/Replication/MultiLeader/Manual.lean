import Replication.MultiLeader.Reconcile

/-!
# Multi leader · Manual: resolving parked conflicts

Under the manual resolver a conflict is parked with the two versions that a human is shown.
`ResolveConflict` takes the conflict off the list and stamps the chosen version in one section, and
stores it in another; neither looks at what the store holds by then.

* `ManualCluster` — runs of a cluster with these sections and with anti-entropy passes.
-/

set_option linter.unusedSectionVars false

namespace Replication.MultiLeader

open Storage Conflict Node Clock Library Simulation Function List

variable {I K σ : Type} [LinearOrder I] [DecidableEq K] [LinearOrder σ] [Inhabited σ]
  {c : Conflict I K (Value σ)} {key : K}

/-! ### The two sections -/

namespace MultiLeaderNode

variable (n : MultiLeaderNode I K (Value σ))

/-- The version that a choice makes of a conflict. Source: `multileader.go` `ResolveConflict`. -/
def chosenEntry (c : Conflict I K (Value σ)) (remote : Bool) (wallNanos : ℤ) :
    KVEntry I K (Value σ) :=
  { (if remote then c.remoteEntry else c.localEntry) with
    vclock := (c.localEntry.vclock.merge c.remoteEntry.vclock).increment n.id
    timestamp := (n.hlc.now wallNanos).2
    nodeID := n.id }

/-- The first section takes a parked conflict off the list and stamps the choice. Source:
`multileader.go` `ResolveConflict`. -/
def takeConflict (key : K) (wallNanos : ℤ) : MultiLeaderNode I K (Value σ) :=
  { n with hlc := (n.hlc.now wallNanos).1, pending := Function.update n.pending key none }

/-- The second section stores the resolved version. Source: `multileader.go` `ResolveConflict`. -/
def storeResolved (resolved : KVEntry I K (Value σ)) (remote : Bool) :
    MultiLeaderNode I K (Value σ) :=
  { n with
    store := n.store.set resolved
    resolutions := n.resolutions ++ [⟨resolved, .manual, .manual (some remote)⟩] }

/-- **One section after the other**, a resolution is what the whole function does. -/
theorem resolveConflict_eq (h : n.pending key = some c) (remote : Bool) (t : ℤ) :
    n.resolveConflict key remote t =
      ((n.takeConflict key t).storeResolved (n.chosenEntry c remote t) remote,
        some (n.chosenEntry c remote t)) := by
  unfold resolveConflict
  rw [h]
  rfl

end MultiLeaderNode

/-- A resolution between its two sections. -/
structure OpenResolution (I K σ : Type) [Inhabited σ] where
  node : I
  conflict : Conflict I K (Value σ)
  /-- Whether the remote version was chosen. -/
  remote : Bool
  resolved : KVEntry I K (Value σ)

/-- A cluster with manual resolutions. -/
structure ManualCluster (I K σ : Type) [Inhabited σ] extends cluster : Cluster I K σ where
  /-- The resolutions between their two sections. -/
  opened : List (OpenResolution I K σ)

/-- One step of a cluster with manual resolutions. -/
inductive ManualAction (I K σ : Type) [Inhabited σ] where
  | base (a : Action I K σ)
  /-- The first section of a resolution. -/
  | take (n : I) (key : K) (remote : Bool) (wallNanos : ℤ)
  /-- The second section of the `i`-th open resolution. -/
  | store (i : ℕ)
  /-- An anti-entropy pass that finds the keys `ks` divergent. -/
  | pass (ids : List I) (order : K → List I) (ks : List K)

namespace ManualCluster

/-- A new cluster has no open resolution. -/
def init (resolver : I → Resolver) : ManualCluster I K σ := ⟨.init resolver, []⟩

/-- One step of a cluster with manual resolutions. -/
def step (s : ManualCluster I K σ) : ManualAction I K σ → ManualCluster I K σ
  | .base a => { s with cluster := s.cluster.step a }
  | .take n key remote t =>
    match (s.nodes n).pending key with
    | none => s
    | some c =>
      ⟨s.setNode n ((s.nodes n).takeConflict key t),
        s.opened ++ [⟨n, c, remote, (s.nodes n).chosenEntry c remote t⟩]⟩
  | .store i =>
    match s.opened[i]? with
    | none => s
    | some r =>
      ⟨{ s.setNode r.node
          ((s.nodes r.node).storeResolved r.resolved r.remote) with
          network := s.network ++ [r.resolved] }, s.opened.eraseIdx i⟩
  | .pass ids order ks => { s with cluster := s.antiEntropy ids order ks }

variable (s : ManualCluster I K σ)

/-- A node is between the two sections of a resolution of a key. -/
def opening (n : I) (key : K) : Bool := ∃ r ∈ s.opened, r.node = n ∧ r.resolved.key = key

/-- A node has a parked conflict for a key, or is resolving one. -/
def busy (n : I) (key : K) : Bool :=
  ((s.nodes n).pending key).isSome = true ∨ s.opening n key = true

/-- Client operations and passes keep off keys with a parked conflict, and everything keeps off keys
between the two sections of a resolution. -/
def undisturbed : ManualAction I K σ → Bool
  | .base (.write n key _ _) => !s.busy n key
  | .base (.delete n key _) => !s.busy n key
  | .base (.receive n i _) =>
    match s.network[i]? with
    | none => true
    | some remote => !s.opening n remote.key
  | .base _ => true
  | .take n key _ _ => !s.opening n key
  | .store _ => true
  | .pass _ order ks => ∀ key ∈ ks, ∀ n ∈ order key, s.busy n key = false

/-- A second section replaces one of the two versions of the conflict, by a version with a larger
clock. -/
def ReplacesParked : ManualAction I K σ → Prop
  | .store i => ∀ r, s.opened[i]? = some r →
      ∀ old, s.stored r.node r.resolved.key = some old →
      old.vclock.happensBefore r.resolved.vclock = true ∧
        (old = r.conflict.localEntry ∨ old = r.conflict.remoteEntry)
  | _ => True

end ManualCluster

/-! ### The invariant -/

/-- The store of a node holds the local version of a conflict, whose versions are of the key. -/
structure Shows (s : Cluster I K σ) (n : I) (key : K) (c : Conflict I K (Value σ)) : Prop where
  stored : s.stored n key = some c.localEntry
  key_eq : c.remoteEntry.key = key

/-- What the lists of parked and open conflicts say about the stores. -/
structure ManualInv (s : ManualCluster I K σ) : Prop where
  key_eq : ∀ n key e, s.stored n key = some e → e.key = key
  /-- Parked conflicts show what is stored, at nodes with the manual resolver. -/
  parked : ∀ n key c, (s.nodes n).pending key = some c →
    Shows s.cluster n key c ∧ (s.nodes n).resolver.type = .manual
  opened : ∀ r ∈ s.opened, Shows s.cluster r.node r.resolved.key r.conflict
  /-- The clock of a resolution is above both versions. -/
  clock : ∀ r ∈ s.opened, ∃ i, r.resolved.vclock =
    (r.conflict.localEntry.vclock.merge r.conflict.remoteEntry.vclock).increment i
  /-- Nothing is parked for a key that is being resolved. -/
  cleared : ∀ r ∈ s.opened, (s.nodes r.node).pending r.resolved.key = none
  distinct : s.opened.Pairwise fun r r' => ¬ (r.node = r'.node ∧ r.resolved.key = r'.resolved.key)

/-- A new cluster meets the invariant. -/
lemma manualInv_init (resolver : I → Resolver) :
    ManualInv (ManualCluster.init resolver : ManualCluster I K σ) := by
  refine ⟨fun n key e he => ?_, fun n key c hc => ?_, ?_, ?_, ?_, List.Pairwise.nil⟩
  · cases he
  · cases hc
  all_goals exact fun r hr => absurd hr not_mem_nil

/-- The clock of a resolution is above both versions. -/
lemma happensBefore_resolved (a b : VectorClock I) (i : I) :
    a.happensBefore ((a.merge b).increment i) = true := by
  rw [VectorClock.happensBefore_iff, VectorClock.count_increment, VectorClock.count_merge]
  have hle : a.count ≤ a.count ⊔ b.count := le_sup_left
  refine lt_of_le_of_lt hle (Pi.lt_def.mpr ⟨fun j => ?_, i, ?_⟩)
  · by_cases hj : j = i
    · subst hj
      rw [update_self]
      exact Nat.le_succ _
    · rw [update_of_ne hj]
  · rw [update_self]
    exact Nat.lt_succ_self _

/-- Store and parked conflict of a key at a node stay. -/
def Quiet (s s' : Cluster I K σ) (n : I) (key : K) : Prop :=
  s'.stored n key = s.stored n key ∧ (s'.nodes n).pending key = (s.nodes n).pending key

section inv

variable {s : ManualCluster I K σ} {c' : Cluster I K σ}

/-- An open resolution keeps its key busy. -/
lemma ManualCluster.opening_of_mem {r : OpenResolution I K σ} (hr : r ∈ s.opened) :
    s.opening r.node r.resolved.key = true := decide_eq_true ⟨r, hr, rfl, rfl⟩

/-- **A step of the cluster** that changes at most some keys, none of them between the two sections
of a resolution, and leaves their parked conflicts right. -/
theorem ManualInv.change (h : ManualInv s) (T : I → K → Prop)
    (hquiet : ∀ n key, ¬ T n key → Quiet s.cluster c' n key)
    (hres : ∀ n, (c'.nodes n).resolver = (s.nodes n).resolver)
    (hkey : ∀ n key e, T n key → c'.stored n key = some e → e.key = key)
    (hparked : ∀ n key c, T n key → (c'.nodes n).pending key = some c →
      Shows c' n key c ∧ (c'.nodes n).resolver.type = .manual)
    (hopen : ∀ n key, T n key → s.opening n key = false) : ManualInv { s with cluster := c' } := by
  have hr : ∀ r ∈ s.opened, Quiet s.cluster c' r.node r.resolved.key := by
    intro r hr
    refine hquiet _ _ fun hT => ?_
    have hfalse := hopen _ _ hT
    simp [ManualCluster.opening_of_mem hr] at hfalse
  refine ⟨fun n key e he => ?_, fun n key c hc => ?_, fun r hmem => ?_, h.clock,
    fun r hmem => ?_, h.distinct⟩
  · by_cases hT : T n key
    · exact hkey n key e hT he
    · exact h.key_eq n key e ((hquiet n key hT).1 ▸ he)
  · by_cases hT : T n key
    · exact hparked n key c hT hc
    · obtain ⟨hstored, hpending⟩ := hquiet n key hT
      obtain ⟨hshows, hman⟩ := h.parked n key c (hpending ▸ hc)
      exact ⟨⟨hstored.trans hshows.stored, hshows.key_eq⟩, (hres n) ▸ hman⟩
  · have hshows := h.opened r hmem
    exact ⟨(hr r hmem).1.trans hshows.stored, hshows.key_eq⟩
  · exact (hr r hmem).2.trans (h.cleared r hmem)

/-- Steps that leave stores and parked conflicts alone. -/
lemma ManualInv.keep (h : ManualInv s) (hquiet : ∀ n key, Quiet s.cluster c' n key)
    (hres : ∀ n, (c'.nodes n).resolver = (s.nodes n).resolver) :
    ManualInv { s with cluster := c' } :=
  h.change (fun _ _ => False) (fun n key _ => hquiet n key) hres (fun _ _ _ hT => hT.elim)
    (fun _ _ _ hT => hT.elim) fun _ _ hT => hT.elim

/-- A node that keeps its resolver. -/
lemma resolver_setNode {n : I} {node : MultiLeaderNode I K (Value σ)}
    (hres : node.resolver = (s.nodes n).resolver) (m : I) :
    ((s.setNode n node).nodes m).resolver = (s.nodes m).resolver :=
  Cluster.setNode_cases (P := fun x => x.resolver = (s.nodes m).resolver) (fun hm => hm ▸ hres)
    fun _ => rfl

/-- Steps of one node that leave its store and its parked conflicts alone. -/
lemma ManualInv.keep_setNode (h : ManualInv s) (n : I) {node : MultiLeaderNode I K (Value σ)}
    (hstore : node.store = (s.nodes n).store)
    (hpending : node.pending = (s.nodes n).pending)
    (hres : node.resolver = (s.nodes n).resolver) :
    ManualInv { s with cluster := s.setNode n node } := by
  refine h.keep (fun m key => ?_) (resolver_setNode hres)
  unfold Quiet Cluster.stored
  by_cases hm : m = n
  · subst hm
    rw [Cluster.setNode_self, hstore, hpending]
    exact ⟨rfl, rfl⟩
  · rw [Cluster.setNode_of_ne _ hm]
    exact ⟨rfl, rfl⟩

/-- A key that is not busy has no conflict, parked or open. -/
lemma ManualCluster.busy_eq_false {n : I} (hb : s.busy n key = false) :
    (s.nodes n).pending key = none ∧ s.opening n key = false := by
  unfold ManualCluster.busy at hb
  rw [decide_eq_false_iff_not, not_or, Bool.not_eq_true, Bool.not_eq_true] at hb
  exact ⟨Option.not_isSome_iff_eq_none.mp (by rw [hb.1]; decide), hb.2⟩

/-- **A version is stored at one node**, and the parked conflict of its key is right afterwards. -/
theorem ManualInv.setNode (h : ManualInv s) (n : I) {node : MultiLeaderNode I K (Value σ)} {k : K}
    (hstore : ∀ key, key ≠ k → node.store.data key = (s.nodes n).store.data key)
    (hpending : ∀ key, key ≠ k → node.pending key = (s.nodes n).pending key)
    (hres : node.resolver = (s.nodes n).resolver)
    (hkey : ∀ e, node.store.data k = some e → e.key = k)
    (hparked : ∀ c, node.pending k = some c → (node.store.data k = some c.localEntry ∧
      c.remoteEntry.key = k) ∧ node.resolver.type = .manual)
    (hopen : s.opening n k = false) :
    ManualInv { s with cluster := s.setNode n node } := by
  refine h.change (fun m key => m = n ∧ key = k) (fun m key hT => ?_) (resolver_setNode hres)
    ?_ ?_ ?_
  · unfold Quiet Cluster.stored
    by_cases hm : m = n
    · subst hm
      have hne : key ≠ k := fun heq => hT ⟨rfl, heq⟩
      rw [Cluster.setNode_self]
      exact ⟨hstore key hne, hpending key hne⟩
    · rw [Cluster.setNode_of_ne _ hm]
      exact ⟨rfl, rfl⟩
  · rintro m key e ⟨rfl, rfl⟩ he
    unfold Cluster.stored at he
    rw [Cluster.setNode_self] at he
    exact hkey e he
  · rintro m key c ⟨rfl, rfl⟩ hc
    rw [Cluster.setNode_self] at hc ⊢
    obtain ⟨⟨hstored, hremote⟩, hman⟩ := hparked c hc
    refine ⟨⟨?_, hremote⟩, hman⟩
    unfold Cluster.stored
    rw [Cluster.setNode_self]
    exact hstored
  · rintro m key ⟨rfl, rfl⟩
    exact hopen

/-- A local operation on a key that is not busy. -/
lemma ManualInv.put (h : ManualInv s) {n : I} (hb : s.busy n key = false) (value : Value σ)
    (b : Bool) (t : ℤ) :
    ManualInv { s with
      cluster := s.setNode n ((s.nodes n).put key value b t).1 } := by
  obtain ⟨hnone, hopen⟩ := ManualCluster.busy_eq_false hb
  refine h.setNode n (k := key) (fun k hk => ?_) (fun _ _ => rfl) rfl (fun e he => ?_)
    (fun c hc => ?_) hopen
  · exact update_of_ne hk _ _
  · exact Store.keyed_set (h.key_eq n) _ key e he
  · exact absurd (hnone.symm.trans hc) (by simp)

end inv

/-- What a remote apply does to a key: store and parked conflict stay, or nothing is parked for it
afterwards, or it was not stored before, or conflicts are not parked, or the conflict is parked with
the version in the store. -/
lemma receiveRemoteWrite_parks {n n' : MultiLeaderNode I K (Value σ)}
    {remote : KVEntry I K (Value σ)} {t : ℤ} (hn' : n' = n.receiveRemoteWrite remote t)
    (hkeyed : ∀ key e, n.store.data key = some e → e.key = key) :
    (∀ key, key ≠ remote.key →
        n'.store.data key = n.store.data key ∧ n'.pending key = n.pending key) ∧
      (n'.store.data remote.key = n.store.data remote.key ∧
          n'.pending remote.key = n.pending remote.key ∨
        n'.pending remote.key = none ∨
        (n.store.data remote.key = none ∨ n.resolver.type ≠ .manual) ∧
          n'.pending remote.key = n.pending remote.key ∨
        n.resolver.type = .manual ∧ ∃ loc, n'.store.data remote.key = some loc ∧
          n'.pending remote.key = some ⟨remote.key, loc, remote, n.id⟩) := by
  have hset : ∀ key, key ≠ remote.key → ∀ x : KVEntry I K (Value σ), x.key = remote.key →
      (n.store.set x).data key = n.store.data key := by
    intro key hkey x hx
    exact update_of_ne (hx ▸ hkey) _ _
  subst hn'
  unfold MultiLeaderNode.receiveRemoteWrite
  dsimp only [Store.getRaw]
  cases hloc : n.store.data remote.key with
  | none =>
    exact ⟨fun key hkey => ⟨hset key hkey remote rfl, rfl⟩, .inr (.inr (.inl ⟨.inl rfl, rfl⟩))⟩
  | some loc =>
    dsimp only
    split_ifs with heq h₁ h₂ hpark hman
    · exact ⟨fun _ _ => ⟨rfl, rfl⟩, .inl ⟨hloc, rfl⟩⟩
    · exact ⟨fun _ _ => ⟨rfl, rfl⟩, .inl ⟨hloc, rfl⟩⟩
    · exact ⟨fun key hkey => ⟨hset key hkey remote rfl, update_of_ne hkey _ _⟩,
        .inr (.inl (update_self _ _ _))⟩
    · exact ⟨fun _ _ => ⟨rfl, rfl⟩, .inl ⟨hloc, rfl⟩⟩
    · exact ⟨fun key hkey => ⟨rfl, update_of_ne hkey _ _⟩,
        .inr (.inr (.inr ⟨hman, loc, hloc, update_self _ _ _⟩))⟩
    · refine ⟨fun key hkey => ⟨hset key hkey _ ?_, rfl⟩, .inr (.inr (.inl ⟨.inr hman, rfl⟩))⟩
      exact Resolver.winner_key _ _ (hkeyed remote.key loc hloc)

/-- A remote apply stores versions under their keys. -/
lemma keyed_receiveRemoteWrite {n : MultiLeaderNode I K (Value σ)}
    (hkeyed : ∀ key e, n.store.data key = some e → e.key = key) (remote : KVEntry I K (Value σ))
    (t : ℤ) : ∀ key e, (n.receiveRemoteWrite remote t).store.data key = some e → e.key = key := by
  rcases n.receiveRemoteWrite_step remote t with ⟨hstore, -⟩ | ⟨hstore, -⟩ | ⟨loc, -, -, -, hstore⟩
  · rw [hstore]
    exact hkeyed
  · rw [hstore]
    exact Store.keyed_set hkeyed remote
  · rw [hstore]
    exact Store.keyed_set hkeyed _

section steps

variable {s : ManualCluster I K σ}

section

variable (h : ManualInv s)

include h

/-- A remote apply outside the sections of a resolution. -/
lemma ManualInv.receive {n : I} {remote : KVEntry I K (Value σ)}
    (hopen : s.opening n remote.key = false) (t : ℤ) :
    ManualInv { s with
      cluster := s.setNode n ((s.nodes n).receiveRemoteWrite remote t) } := by
  have hkeyed : ∀ key e, (s.nodes n).store.data key = some e → e.key = key := h.key_eq n
  obtain ⟨hother, hself⟩ := receiveRemoteWrite_parks (t := t) rfl hkeyed
  have hres := ((s.nodes n).receiveRemoteWrite_frame remote t).2.2.1
  refine h.setNode n (k := remote.key) (fun key hkey => (hother key hkey).1)
    (fun key hkey => (hother key hkey).2) hres (keyed_receiveRemoteWrite hkeyed remote t remote.key)
    (fun c hc => ?_) hopen
  rw [hres]
  rcases hself with ⟨hstore, hpending⟩ | hnone | ⟨hor, hpending⟩ | ⟨hman, loc, hstore, hpending⟩
  · obtain ⟨hshows, hman⟩ := h.parked n remote.key c (hpending ▸ hc)
    exact ⟨⟨hstore.trans hshows.stored, hshows.key_eq⟩, hman⟩
  · exact absurd (hnone.symm.trans hc) (by simp)
  · -- a parked conflict shows a stored version, at a node with the manual resolver
    obtain ⟨hshows, hman⟩ := h.parked n remote.key c (hpending ▸ hc)
    rcases hor with hnone | hauto
    · exact absurd (hnone.symm.trans hshows.stored) (by simp)
    · exact absurd hman hauto
  · rw [hpending] at hc
    cases hc
    exact ⟨⟨hstore, rfl⟩, hman⟩

/-- Only the nodes matter. -/
lemma ManualInv.of_nodes {c' : Cluster I K σ} (hnodes : c'.nodes = s.nodes) :
    ManualInv { s with cluster := c' } := by
  refine h.keep (fun n key => ?_) fun n => ?_
  · unfold Quiet Cluster.stored
    rw [hnodes]
    exact ⟨rfl, rfl⟩
  · rw [hnodes]

/-- **A step of the cluster.** -/
theorem manualInv_base {a : Action I K σ} (hu : s.undisturbed (.base a) = true) :
    ManualInv { s with cluster := s.cluster.step a } := by
  have hmove := step_outcome s.cluster a
  generalize s.cluster.step a = c' at hmove ⊢
  cases hmove with
  | idle => exact h
  | put n key value b t hact =>
    have hb : s.busy n key = false := by
      rcases hact with ⟨rfl, -⟩ | ⟨rfl, -, -⟩ <;> simpa [ManualCluster.undisturbed] using hu
    exact (h.put hb value b t).of_nodes rfl
  | send => exact h.of_nodes rfl
  | receive n i t ha remote hi =>
    subst ha
    simp only [ManualCluster.undisturbed, hi, Bool.not_eq_true'] at hu
    exact h.receive hu t
  | switch n | skew n => exact h.keep_setNode n rfl rfl rfl

end

/-- The choice has the key of both versions. -/
lemma chosenEntry_key {n : MultiLeaderNode I K (Value σ)} (hlocal : c.localEntry.key = key)
    (hremote : c.remoteEntry.key = key) (remote : Bool) (t : ℤ) :
    (n.chosenEntry c remote t).key = key := by
  cases remote with
  | false => exact hlocal
  | true => exact hremote

section

variable (h : ManualInv s)

include h

/-- **The first section** opens a resolution. -/
theorem ManualInv.take {n : I} (hc : (s.nodes n).pending key = some c)
    (hopen : s.opening n key = false) (remote : Bool) (t : ℤ) :
    ManualInv ⟨s.setNode n ((s.nodes n).takeConflict key t),
      s.opened ++ [⟨n, c, remote, (s.nodes n).chosenEntry c remote t⟩]⟩ := by
  have htaken : ManualInv { s with
      cluster := s.setNode n ((s.nodes n).takeConflict key t) } := by
    refine h.setNode n (k := key) (fun _ _ => rfl) (fun k hk => ?_) rfl (h.key_eq n key)
      (fun c' hc' => ?_) hopen
    · exact update_of_ne hk _ _
    · have hnone : ((s.nodes n).takeConflict key t).pending key = none :=
        update_self _ _ _
      exact absurd (hnone.symm.trans hc') (by simp)
  obtain ⟨hshows, -⟩ := h.parked n key c hc
  have hkey : ((s.nodes n).chosenEntry c remote t).key = key :=
    chosenEntry_key (h.key_eq n key _ hshows.stored) hshows.key_eq remote t
  have hself : (s.setNode n ((s.nodes n).takeConflict key t)).nodes n =
      (s.nodes n).takeConflict key t := Cluster.setNode_self _ _ _
  refine ⟨htaken.key_eq, htaken.parked, ?_, ?_, ?_, ?_⟩
  · intro r hr
    rcases mem_append.mp hr with hr | hr
    · exact htaken.opened r hr
    rw [mem_singleton.mp hr]
    dsimp only
    rw [hkey]
    refine ⟨?_, hshows.key_eq⟩
    unfold Cluster.stored
    rw [hself]
    exact hshows.stored
  · intro r hr
    rcases mem_append.mp hr with hr | hr
    · exact htaken.clock r hr
    · rw [mem_singleton.mp hr]
      exact ⟨_, rfl⟩
  · intro r hr
    rcases mem_append.mp hr with hr | hr
    · exact htaken.cleared r hr
    rw [mem_singleton.mp hr]
    dsimp only
    rw [hkey, hself]
    exact update_self _ _ _
  · refine pairwise_append.mpr ⟨h.distinct, pairwise_singleton _ _, fun r hr r' hr' => ?_⟩
    rw [mem_singleton.mp hr']
    rintro ⟨hnode, hk⟩
    have hbusy := ManualCluster.opening_of_mem hr
    simp [hnode, hk, hkey, hopen] at hbusy

/-- **The second section** closes a resolution. -/
theorem ManualInv.store {i : ℕ} {r : OpenResolution I K σ} (hi : s.opened[i]? = some r) :
    ManualInv ⟨{ s.setNode r.node
        ((s.nodes r.node).storeResolved r.resolved r.remote) with
        network := s.network ++ [r.resolved] }, s.opened.eraseIdx i⟩ := by
  have hmem : r ∈ s.opened := mem_of_getElem? hi
  have hpermutes : (r :: s.opened.eraseIdx i).Perm s.opened := by
    obtain ⟨hlt, rfl⟩ := List.getElem?_eq_some_iff.mp hi
    exact getElem_cons_eraseIdx_perm hlt
  have hdistinct : (r :: s.opened.eraseIdx i).Pairwise fun r r' =>
      ¬ (r.node = r'.node ∧ r.resolved.key = r'.resolved.key) :=
    (hpermutes.pairwise_iff fun hne heq => hne ⟨heq.1.symm, heq.2.symm⟩).mpr h.distinct
  obtain ⟨hother, hrest⟩ := pairwise_cons.mp hdistinct
  have hsub : ∀ r' ∈ s.opened.eraseIdx i, r' ∈ s.opened := fun r' hr' =>
    mem_of_mem_eraseIdx hr'
  -- the resolution that is stored is no longer open
  have hopened : ManualInv ⟨s.cluster, s.opened.eraseIdx i⟩ :=
    ⟨h.key_eq, h.parked, fun r' hr' => h.opened r' (hsub r' hr'),
      fun r' hr' => h.clock r' (hsub r' hr'), fun r' hr' => h.cleared r' (hsub r' hr'), hrest⟩
  have hfree : ManualCluster.opening ⟨s.cluster, s.opened.eraseIdx i⟩ r.node r.resolved.key =
      false := by
    refine decide_eq_false ?_
    rintro ⟨r', hr', hnode, hkey⟩
    exact hother r' hr' ⟨hnode.symm, hkey.symm⟩
  have hstored : ManualInv ⟨s.setNode r.node
      ((s.nodes r.node).storeResolved r.resolved r.remote), s.opened.eraseIdx i⟩ := by
    refine hopened.setNode r.node (k := r.resolved.key) (fun k hk => ?_) (fun _ _ => rfl) rfl
      (fun e he => ?_) (fun c hc => ?_) hfree
    · exact update_of_ne hk _ _
    · exact Store.keyed_set (h.key_eq r.node) r.resolved _ e he
    · exact absurd ((h.cleared r hmem).symm.trans hc) (by simp)
  exact hstored.of_nodes rfl

/-- **A pass** that keeps off keys with a conflict. -/
theorem ManualInv.pass (ids : List I) {order : K → List I} {ks : List K}
    (hfree : ∀ key ∈ ks, ∀ n ∈ order key, s.busy n key = false) :
    ManualInv { s with cluster := s.antiEntropy ids order ks } := by
  have hkeyed : KeyEq s.stores := h.key_eq
  obtain ⟨hkeyed', hdata⟩ := runAntiEntropy_data hkeyed (s.online ids) order ks
  refine h.change (fun n key => key ∈ ks ∧ n ∈ order key) (fun n key hT => ?_) (fun _ => rfl)
    (fun n key e _ he => ?_) (fun n key c hT hc => ?_) fun n key hT => ?_
  · exact ⟨hdata n key hT, rfl⟩
  · exact hkeyed' n key e he
  · have hnone := (ManualCluster.busy_eq_false (hfree key hT.1 n hT.2)).1
    exact absurd (hnone.symm.trans hc) (by simp)
  · exact (ManualCluster.busy_eq_false (hfree key hT.1 n hT.2)).2

/-- **A step.** -/
theorem manualInv_step {a : ManualAction I K σ} (hu : s.undisturbed a = true) :
    ManualInv (s.step a) := by
  cases a with
  | base => exact manualInv_base h hu
  | take n key remote t =>
    simp only [ManualCluster.step]
    cases hc : (s.nodes n).pending key with
    | none => exact h
    | some =>
      have hopen : s.opening n key = false := by simpa [ManualCluster.undisturbed] using hu
      exact h.take hc hopen remote t
  | store i =>
    simp only [ManualCluster.step]
    cases hi : s.opened[i]? with
    | none => exact h
    | some => exact h.store hi
  | pass ids => exact h.pass ids (of_decide_eq_true hu)

/-- The invariant tells what a second section replaces. -/
lemma ManualInv.replacesParked (a : ManualAction I K σ) : s.ReplacesParked a := by
  cases a with
  | store =>
    intro r hi old hold
    have hmem : r ∈ s.opened := mem_of_getElem? hi
    obtain ⟨j, hclock⟩ := h.clock r hmem
    have hlocal : old = r.conflict.localEntry :=
      Option.some.inj (hold.symm.trans (h.opened r hmem).stored)
    refine ⟨?_, .inl hlocal⟩
    rw [hclock, hlocal]
    exact happensBefore_resolved _ _ j
  | base | take | pass => trivial

end

end steps

/-- **A manual resolution overwrites nothing that the human was not shown**, in every run in which
no client operation or pass touches a key with a parked conflict, and nothing touches it between the
two sections: the version it replaces is one of the two parked ones, below the resolved one. -/
theorem resolve_replaces_parked (resolver : I → Resolver) (as : List (ManualAction I K σ))
    (h : Along ManualCluster.step (fun s a => s.undisturbed a = true)
      (ManualCluster.init resolver) as) :
    Along ManualCluster.step ManualCluster.ReplacesParked (ManualCluster.init resolver) as :=
  along_of_invariant ManualInv (fun _ _ hu hs => manualInv_step hs hu)
    (fun _ a _ hs => hs.replacesParked a) h (manualInv_init resolver)

/-- Two nodes write a key, and the first one parks the conflict. -/
private def parkedRun : List (ManualAction ℕ ℕ ℕ) :=
  [.base (.write 0 7 (.plain [1]) 5), .base (.write 1 7 (.plain [2]) 5), .base (.receive 0 1 6)]

/-- A conflict is parked and resolved, and then the key is written again. -/
theorem resolve_replaces_parked_example :
    Along ManualCluster.step ManualCluster.ReplacesParked (ManualCluster.init fun _ => .manual)
      (parkedRun ++ [.take 0 7 true 8, .store 0, .base (.write 0 7 (.plain [3]) 9)]) :=
  resolve_replaces_parked _ _ (by decide +kernel)

/-- The node writes the key twice after it parked the conflict: the resolution overwrites the new
version, which is neither of the two parked ones and not below the resolved one. -/
theorem resolve_overwrites_unseen :
    let s := run ManualCluster.step (ManualCluster.init fun _ => .manual)
      (parkedRun ++ [.base (.write 0 7 (.plain [3]) 7), .base (.write 0 7 (.plain [4]) 8),
        .take 0 7 true 9])
    ∃ r old, s.opened[0]? = some r ∧ s.stored r.node r.resolved.key = some old ∧
      old.value = .plain [4] ∧ old.vclock.happensBefore r.resolved.vclock = false ∧
      old ≠ r.conflict.localEntry ∧ old ≠ r.conflict.remoteEntry ∧
      ((s.step (.store 0)).stored 0 7).map KVEntry.value = some (.plain [2]) :=
  ⟨_, _, rfl, rfl, by decide +kernel, by decide +kernel, by decide +kernel, by decide +kernel,
    by decide +kernel⟩

end Replication.MultiLeader
