import Replication.MultiLeader.Clocks

/-!
# Multi leader · Redelivery: a version that a node knows is not applied again

A version in the network can be delivered any number of times. Once a node has received a version or
written it, the clock it has stored for the key is at least the clock of the version, and stored
clocks never decrease; so a later delivery finds an equal or a newer clock and is ignored.
-/

set_option linter.unusedSectionVars false

namespace Replication.MultiLeader

open Storage Conflict Node Clock Library Function

variable {I K σ : Type} [LinearOrder I] [DecidableEq K] [LinearOrder σ] [Inhabited σ]
  {e : KVEntry I K (Value σ)} {key : K}

/-- In the step `a`, node `n` receives the version `e` or writes it. -/
def Cluster.Learns (s : Cluster I K σ) (a : Action I K σ) (n : I) (e : KVEntry I K (Value σ)) :
    Prop :=
  (s.nodes n).state.isPaused = false ∧
    ((∃ i t, a = .receive n i t ∧ s.network[i]? = some e) ∨
      ∃ key value b t, a.IsPut n key value b t ∧ e = s.putEntry n key value b t)

/-! ### One node -/

section node

variable {n : MultiLeaderNode I K (Value σ)} {remote : KVEntry I K (Value σ)} {t : ℤ}

/-- The clock of the version that is stored. -/
lemma MultiLeaderNode.clockOf_eq_of_data (h : n.store.data key = some e) :
    n.clockOf key = e.vclock.count := by
  unfold MultiLeaderNode.clockOf
  rw [h]
  rfl

/-- After a version is stored, its clock is. -/
lemma MultiLeaderNode.clockOf_of_set (n' : MultiLeaderNode I K (Value σ))
    (e : KVEntry I K (Value σ)) (h : n'.store = n.store.set e) :
    n'.clockOf e.key = e.vclock.count ∧ (n'.store.data e.key).isSome = true := by
  have hdata : n'.store.data e.key = some { e with version := n.store.version + 1 } := by
    rw [h]
    exact update_self _ _ _
  have hclock := MultiLeaderNode.clockOf_eq_of_data hdata
  exact ⟨hclock, by rw [hdata]; rfl⟩

/-- **After a remote apply** the stored clock is not behind the version, unless conflicts are
parked. -/
theorem le_clockOf_receive (hauto : n.resolver.type ≠ .manual)
    (hpos : ∀ loc, n.store.data remote.key = some loc → loc.vclock.Positive)
    (hpos' : remote.vclock.Positive)
    (hkey : ∀ loc, n.store.data remote.key = some loc → loc.key = remote.key) :
    remote.vclock.count ≤ (n.receiveRemoteWrite remote t).clockOf remote.key ∧
      ((n.receiveRemoteWrite remote t).store.data remote.key).isSome = true := by
  cases n.receiveRemoteWrite_step remote t with
  | keep hstore hwhy =>
    rcases hwhy with hman | ⟨loc, hloc, hle⟩
    · exact absurd hman hauto
    have hdata : (n.receiveRemoteWrite remote t).store.data remote.key = some loc := hstore ▸ hloc
    rw [MultiLeaderNode.clockOf_eq_of_data hdata, hdata]
    refine ⟨?_, rfl⟩
    rcases hle with heq | h₁
    · exact ((hpos'.equal_iff (hpos loc hloc)).mp heq).le
    · exact (VectorClock.happensBefore_iff.mp h₁).le
  | take hstore => exact (MultiLeaderNode.clockOf_of_set _ remote hstore).imp_left fun h => h.ge
  | resolve loc hloc _ _ hstore =>
    -- the winner is stored under the join of both clocks
    have hwinner : (n.resolvedEntry ⟨remote.key, loc, remote, n.id⟩).key = remote.key :=
      Resolver.winner_key _ _ (hkey loc hloc)
    have hset := MultiLeaderNode.clockOf_of_set _ _ hstore
    rw [hwinner, MultiLeaderNode.resolvedEntry_count] at hset
    exact hset.imp_left fun h => le_sup_right.trans h.ge

/-- **A version that is not ahead of the stored clock is ignored.** -/
theorem receive_of_le {loc : KVEntry I K (Value σ)} (hloc : n.store.data remote.key = some loc)
    (hpos : loc.vclock.Positive) (hpos' : remote.vclock.Positive)
    (hle : remote.vclock.count ≤ loc.vclock.count) :
    n.receiveRemoteWrite remote t = { n with hlc := (n.hlc.update t remote.timestamp).1 } := by
  unfold MultiLeaderNode.receiveRemoteWrite
  dsimp only [Store.getRaw]
  rw [hloc]
  dsimp only
  rcases hle.eq_or_lt with heq | hlt
  · rw [if_pos ((hpos'.equal_iff hpos).mpr heq)]
  have hne : remote.vclock.equal loc.vclock = false := by
    rw [Bool.eq_false_iff, Ne, hpos'.equal_iff hpos]
    exact hlt.ne
  rw [if_neg (by rw [hne]; decide), if_pos (VectorClock.happensBefore_iff.mpr hlt)]

end node

/-! ### Runs -/

section runs

variable {s : Cluster I K σ}

/-- A key that is stored stays stored, in a step -/
lemma isSome_stored_step (s : Cluster I K σ) (a : Action I K σ) {n : I}
    (h : (s.stored n key).isSome = true) : ((s.step a).stored n key).isSome = true := by
  rcases (step_storeStep s a).stored_or_set with hstored | ⟨m, e, hset⟩
  · rw [hstored]
    exact h
  by_cases hne : n = m ∧ key = e.key
  · obtain ⟨rfl, rfl⟩ := hne
    rw [hset.stored_self]
    rfl
  · rw [hset.stored_of_ne hne]
    exact h

/-- and in a run. -/
lemma isSome_stored_run (as : List (Action I K σ)) {n : I} (h : (s.stored n key).isSome = true) :
    ((run Cluster.step s as).stored n key).isSome = true :=
  run_invariant' (fun s => (s.stored n key).isSome = true)
    (fun s a hs => isSome_stored_step s a hs) as h

/-- The node that a version is delivered to. -/
lemma Cluster.nodes_receive {n : I} {i : ℕ} (hi : s.network[i]? = some e) (t : ℤ) :
    (s.step (.receive n i t)).nodes n = (s.nodes n).handleMessage e t := by
  simp only [Cluster.step, hi, Cluster.setNode_self]

/-- **After a node has received or written a version**, the clock it has stored is not behind. -/
theorem Cluster.Learns.le_clockOf (hc : ClockInv s) {a : Action I K σ} {n : I}
    (hauto : (s.nodes n).resolver.type ≠ .manual) (h : s.Learns a n e) :
    e.vclock.count ≤ (s.step a).clockOf n e.key ∧ ((s.step a).stored n e.key).isSome = true := by
  obtain ⟨hup, ⟨i, t, rfl, hi⟩ | ⟨key, value, b, t, hput, rfl⟩⟩ := h
  · have hnode : (s.step (.receive n i t)).nodes n = (s.nodes n).receiveRemoteWrite e t := by
      rw [Cluster.nodes_receive hi, MultiLeaderNode.handleMessage, if_neg (by rw [hup]; decide)]
    unfold Cluster.clockOf Cluster.stored
    rw [hnode]
    refine le_clockOf_receive hauto (fun loc hloc => ?_) ?_ fun loc hloc => ?_
    · exact hc.positive loc (.inr ⟨n, e.key, hloc⟩)
    · exact hc.positive e (.inl (List.mem_of_getElem? hi))
    · exact hc.key_eq n e.key loc hloc
  · have hnode : ((s.step a).nodes n).store =
        (s.nodes n).store.set (s.putEntry n key value b t) := by
      rw [Cluster.step_of_isPut hput, if_neg (by simp [hup])]
      exact congrArg (·.store) (Function.update_self n _ s.nodes)
    have hset := MultiLeaderNode.clockOf_of_set _ _ hnode
    exact ⟨hset.1.ge, hset.2⟩

/-- Resolvers stay in a run. -/
lemma resolver_run (as : List (Action I K σ)) (n : I) :
    ((run Cluster.step s as).nodes n).resolver = (s.nodes n).resolver := by
  refine run_invariant' (fun s' : Cluster I K σ => (s'.nodes n).resolver = (s.nodes n).resolver) ?_
    as rfl
  intro s' a hs
  rw [(step_frame s' a n).2, hs]

/-- **A version that a node has received or written is ignored** whenever it is delivered again:
store, conflicts and resolutions stay as they are. -/
theorem redelivery_ignored (resolver : I → Resolver) (hauto : ∀ n, (resolver n).type ≠ .manual)
    (as bs : List (Action I K σ)) (a : Action I K σ) (n : I) (e e' : KVEntry I K (Value σ))
    (hlearn : (run Cluster.step (Cluster.init resolver) as).Learns a n e)
    (hsame : e'.content = e.content) (j : ℕ) (t : ℤ)
    (hj : (run Cluster.step (Cluster.init resolver) (as ++ a :: bs)).network[j]? = some e') :
    let s := run Cluster.step (Cluster.init resolver) (as ++ a :: bs)
    let s' := s.step (.receive n j t)
    (s'.nodes n).store = (s.nodes n).store ∧ (s'.nodes n).conflicts = (s.nodes n).conflicts ∧
      (s'.nodes n).resolutions = (s.nodes n).resolutions := by
  intro s s'
  have hinv := clockInv_run (clockInv_init (σ := σ) (K := K) resolver) as
  have hs : s = run Cluster.step ((run Cluster.step (Cluster.init resolver) as).step a) bs := by
    show run Cluster.step _ (as ++ a :: bs) = _
    rw [run_append, run_cons]
  have hinv' : ClockInv s := clockInv_run (clockInv_init resolver) _
  have hkey : e'.key = e.key := (KVEntry.mk.inj hsame).1
  have hclock : e'.vclock = e.vclock := (KVEntry.mk.inj hsame).2.2.1
  -- the node knows the version, and its clock of the key has not gone back since
  have hmanual : ((run Cluster.step (Cluster.init resolver) as).nodes n).resolver.type ≠
      .manual := by
    rw [resolver_run]
    exact hauto n
  obtain ⟨hle, hsome⟩ := hlearn.le_clockOf hinv hmanual
  have hle' : e'.vclock.count ≤ s.clockOf n e'.key := by
    rw [hs, hkey, hclock]
    exact hle.trans (clockOf_le_run (clockInv_step hinv a) bs n e.key)
  obtain ⟨loc, hloc⟩ : ∃ loc, s.stored n e'.key = some loc := by
    rw [hs, hkey]
    exact Option.isSome_iff_exists.mp (isSome_stored_run bs hsome)
  rw [Cluster.clockOf_eq hloc] at hle'
  have hnode : s'.nodes n = (s.nodes n).handleMessage e' t := Cluster.nodes_receive hj t
  rw [hnode, MultiLeaderNode.handleMessage]
  split_ifs
  · exact ⟨rfl, rfl, rfl⟩
  · rw [receive_of_le hloc (hinv'.positive loc (.inr ⟨n, e'.key, hloc⟩))
      (hinv'.positive e' (.inl (List.mem_of_getElem? hj))) hle']
    exact ⟨rfl, rfl, rfl⟩

end runs

/-- Two nodes write a key; the second one receives the first version and resolves the conflict, and
the version comes again after another write. -/
theorem redelivery_ignored_example :
    let s := run Cluster.step (Cluster.init (fun _ => Resolver.lww) : Cluster ℕ ℕ ℕ)
      ([.write 0 7 (.plain [1]) 5, .write 1 7 (.plain [2]) 5] ++
        .receive 1 0 6 :: [.write 1 7 (.plain [3]) 8])
    ((s.step (.receive 1 0 9)).nodes 1).store = (s.nodes 1).store :=
  (redelivery_ignored (fun _ => Resolver.lww) (fun _ => by decide)
    [.write 0 7 (.plain [1]) 5, .write 1 7 (.plain [2]) 5] [.write 1 7 (.plain [3]) 8]
    (.receive 1 0 6) 1 _ _ ⟨rfl, .inl ⟨0, 6, rfl, rfl⟩⟩ rfl 0 9 rfl).1

end Replication.MultiLeader
