import Replication.Library.Causal
import Replication.Library.Run
import Replication.MultiLeader.Node

/-!
# Multi leader · Cluster: runs

A cluster is a node for every id and the versions that were ever sent. A version in the network
stays there: it can be delivered late, repeatedly, out of order or never, to any node. The client
operations that were accepted are recorded beside the state, as the entries they created.
-/

set_option linter.unusedSectionVars false

namespace Replication.MultiLeader

open Storage Conflict Node Clock Library Function

/-- The state of a cluster, with what was sent and what was written. -/
structure Cluster (I K σ : Type) [Inhabited σ] where
  nodes : I → MultiLeaderNode I K (Value σ)
  network : List (KVEntry I K (Value σ))
  /-- The entries of the client operations accepted so far. -/
  writes : List (KVEntry I K (Value σ))

/-- One step of the cluster. A step that reads the wall clock has the reading. -/
inductive Action (I K σ : Type) [Inhabited σ] where
  | write (n : I) (key : K) (value : Value σ) (wallNanos : ℤ)
  | delete (n : I) (key : K) (wallNanos : ℤ)
  /-- `runAntiEntropy` broadcasts the version of a key. -/
  | broadcast (n : I) (key : K)
  /-- A node receives the `i`-th version sent. -/
  | receive (n : I) (i : ℕ) (wallNanos : ℤ)
  | pause (n : I)
  | resume (n : I)
  | setClockSkew (n : I) (ms : ℤ)

variable {I K σ : Type} [LinearOrder I] [DecidableEq K] [LinearOrder σ] [Inhabited σ]

namespace Cluster

/-- A new cluster. Source: `orchestrator.go` `createMultiLeaderCluster`. -/
def init (resolver : I → Resolver) : Cluster I K σ where
  nodes n := .new n (resolver n)
  network := []
  writes := []

/-- A client operation that node `n` may refuse. -/
def accept (s : Cluster I K σ) (n : I)
    (r : MultiLeaderNode I K (Value σ) × Option (KVEntry I K (Value σ))) : Cluster I K σ :=
  match r with
  | (_, none) => s
  | (node, some e) =>
    ⟨Function.update s.nodes n node, s.network ++ [e], s.writes ++ [e]⟩

/-- The cluster with another node `n`. -/
def setNode (s : Cluster I K σ) (n : I) (node : MultiLeaderNode I K (Value σ)) : Cluster I K σ :=
  { s with nodes := Function.update s.nodes n node }

/-- One step of the cluster. -/
def step (s : Cluster I K σ) : Action I K σ → Cluster I K σ
  | .write n key value t => s.accept n ((s.nodes n).write key value t)
  | .delete n key t => s.accept n ((s.nodes n).delete key t)
  | .broadcast n key =>
    if (s.nodes n).state.isPaused then s
    else { s with network := s.network ++ ((s.nodes n).store.getRaw key).toList }
  | .receive n i t =>
    match s.network[i]? with
    | none => s
    | some remote => s.setNode n ((s.nodes n).handleMessage remote t)
  | .pause n => s.setNode n { s.nodes n with state := .paused }
  | .resume n => s.setNode n { s.nodes n with state := .online }
  | .setClockSkew n ms => s.setNode n { s.nodes n with hlc := (s.nodes n).hlc.setSkewMillis ms }

/-- The version of a key that a node has stored. -/
def stored (s : Cluster I K σ) (n : I) (key : K) : Option (KVEntry I K (Value σ)) :=
  (s.nodes n).store.data key

/-- The clock a node has stored for a key, zero if there is none. -/
def clockOf (s : Cluster I K σ) (n : I) (key : K) : I → ℕ := (s.nodes n).clockOf key

/-- The component of a node in its own clock of a key. -/
def own (s : Cluster I K σ) (n : I) (key : K) : ℕ := s.clockOf n key n

/-- A version that is stored somewhere or was sent. -/
def Has (s : Cluster I K σ) (e : KVEntry I K (Value σ)) : Prop :=
  e ∈ s.network ∨ ∃ n key, s.stored n key = some e

end Cluster

/-- The number of an operation among those of its node on its key. -/
def opNumber (w : KVEntry I K (Value σ)) : ℕ := w.vclock.count w.nodeID

/-- The operations on a key that a clock counts. -/
def Cluster.Counts (s : Cluster I K σ) (key : K) (vc : I → ℕ) (w : KVEntry I K (Value σ)) : Prop :=
  Counted KVEntry.nodeID opNumber {w | w ∈ s.writes ∧ w.key = key} vc w

/-- The clock of the version that is stored. -/
lemma Cluster.clockOf_eq {s : Cluster I K σ} {n : I} {key : K} {e : KVEntry I K (Value σ)}
    (h : s.stored n key = some e) : s.clockOf n key = e.vclock.count := by
  unfold Cluster.stored at h
  unfold Cluster.clockOf MultiLeaderNode.clockOf
  rw [h]
  rfl

/-- Without a version the clock is zero. -/
lemma Cluster.clockOf_of_none {s : Cluster I K σ} {n : I} {key : K} (h : s.stored n key = none) :
    s.clockOf n key = 0 := by
  unfold Cluster.stored at h
  unfold Cluster.clockOf MultiLeaderNode.clockOf
  rw [h]
  rfl

/-- Equal versions have equal clocks. -/
lemma Cluster.clockOf_congr {s s' : Cluster I K σ} {n : I} {key : K}
    (h : s'.stored n key = s.stored n key) : s'.clockOf n key = s.clockOf n key :=
  congrArg (fun o => o.elim 0 fun e : KVEntry I K (Value σ) => e.vclock.count) h

/-! ### Moves -/

/-- The entry of a local operation. -/
def Cluster.putEntry (s : Cluster I K σ) (n : I) (key : K) (value : Value σ) (tombstone : Bool)
    (t : ℤ) : KVEntry I K (Value σ) :=
  ((s.nodes n).put key value tombstone t).2

/-- The action is a local operation with these arguments. -/
def Action.IsPut (a : Action I K σ) (n : I) (key : K) (value : Value σ) (tombstone : Bool) (t : ℤ) :
    Prop :=
  a = .write n key value t ∧ tombstone = false ∨
    a = .delete n key t ∧ value = default ∧ tombstone = true

/-- The winner of a conflict at a node. -/
def Cluster.resolvedEntry (s : Cluster I K σ) (n : I) (loc remote : KVEntry I K (Value σ)) :
    KVEntry I K (Value σ) :=
  (s.nodes n).resolvedEntry ⟨remote.key, loc, remote, (s.nodes n).id⟩

/-- A step that stores `e` at node `n`, leaves the other nodes alone and sends at most `e`. -/
structure SetStep (s s' : Cluster I K σ) (n : I) (e : KVEntry I K (Value σ)) : Prop where
  self : (s'.nodes n).store = (s.nodes n).store.set e
  other : ∀ m, m ≠ n → s'.nodes m = s.nodes m
  network : ∀ x ∈ s'.network, x ∈ s.network ∨ x = e

/-- What a step does to stores, network and operations. -/
inductive StoreStep (s : Cluster I K σ) (a : Action I K σ) (s' : Cluster I K σ) : Prop
  | frame (hstored : ∀ n key, s'.stored n key = s.stored n key)
      (hhas : ∀ e, s'.Has e → s.Has e) (hwrites : s'.writes = s.writes)
  | put (n : I) (key : K) (value : Value σ) (tombstone : Bool) (t : ℤ)
      (hact : a.IsPut n key value tombstone t)
      (hhlc : (s'.nodes n).hlc = ((s.nodes n).hlc.now t).1)
      (hset : SetStep s s' n (s.putEntry n key value tombstone t))
      (hwrites : s'.writes = s.writes ++ [s.putEntry n key value tombstone t])
  | take (n : I) (remote : KVEntry I K (Value σ)) (t : ℤ) (hmem : remote ∈ s.network)
      (hhlc : (s'.nodes n).hlc = ((s.nodes n).hlc.update t remote.timestamp).1)
      (hle : s.clockOf n remote.key ≤ remote.vclock.count) (hset : SetStep s s' n remote)
      (hwrites : s'.writes = s.writes)
  /-- A remote version is resolved against the concurrent local one. -/
  | resolve (n : I) (remote loc : KVEntry I K (Value σ)) (t : ℤ) (hmem : remote ∈ s.network)
      (hhlc : (s'.nodes n).hlc = ((s.nodes n).hlc.update t remote.timestamp).1)
      (hloc : s.stored n remote.key = some loc)
      (h₁ : remote.vclock.happensBefore loc.vclock = false)
      (h₂ : loc.vclock.happensBefore remote.vclock = false)
      (hset : SetStep s s' n (s.resolvedEntry n loc remote)) (hwrites : s'.writes = s.writes)

section moves

variable {s : Cluster I K σ}

/-- The node that was set. -/
@[simp] lemma Cluster.setNode_self (s : Cluster I K σ) (n : I)
    (node : MultiLeaderNode I K (Value σ)) : (s.setNode n node).nodes n = node :=
  update_self _ _ _

/-- The others stay. -/
lemma Cluster.setNode_of_ne (s : Cluster I K σ) {n m : I} (hm : m ≠ n)
    (node : MultiLeaderNode I K (Value σ)) : (s.setNode n node).nodes m = s.nodes m :=
  update_of_ne hm _ _

/-- What holds of the new node and of all others. -/
lemma Cluster.setNode_cases {P : MultiLeaderNode I K (Value σ) → Prop} {n m : I}
    {node : MultiLeaderNode I K (Value σ)} (hself : m = n → P node)
    (hother : m ≠ n → P (s.nodes m)) : P ((s.setNode n node).nodes m) := by
  by_cases hm : m = n
  · rw [hm, Cluster.setNode_self]
    exact hself hm
  · rw [s.setNode_of_ne hm]
    exact hother hm

/-- Writes and deletes are accepted or refused in the same way. -/
lemma Cluster.step_of_isPut {a : Action I K σ} {n : I} {key : K} {value : Value σ} {b : Bool}
    {t : ℤ} (hact : a.IsPut n key value b t) : s.step a =
      s.accept n (if (s.nodes n).state.isPaused then (s.nodes n, none)
        else (((s.nodes n).put key value b t).1, some (s.putEntry n key value b t))) := by
  rcases hact with ⟨rfl, rfl⟩ | ⟨rfl, rfl, rfl⟩ <;> rfl

/-- What a step can do: a node accepts an operation, a stored version is sent, or a node changes. -/
inductive Outcome (s : Cluster I K σ) (a : Action I K σ) : Cluster I K σ → Prop
  | idle : Outcome s a s
  | put (n : I) (key : K) (value : Value σ) (b : Bool) (t : ℤ) (hact : a.IsPut n key value b t) :
      Outcome s a (s.accept n
        (((s.nodes n).put key value b t).1, some (s.putEntry n key value b t)))
  | send (n : I) (key : K) : Outcome s a
      { s with network := s.network ++ ((s.nodes n).store.getRaw key).toList }
  | receive (n : I) (i : ℕ) (t : ℤ) (ha : a = .receive n i t) (remote : KVEntry I K (Value σ))
      (hi : s.network[i]? = some remote) :
      Outcome s a (s.setNode n ((s.nodes n).receiveRemoteWrite remote t))
  | switch (n : I) (st : NodeState) : Outcome s a (s.setNode n { s.nodes n with state := st })
  | skew (n : I) (ms : ℤ) : Outcome s a
      (s.setNode n { s.nodes n with hlc := (s.nodes n).hlc.setSkewMillis ms })

/-- Every step does one of these. -/
lemma step_outcome (s : Cluster I K σ) (a : Action I K σ) : Outcome s a (s.step a) := by
  have hput : ∀ {n key value b t}, a.IsPut n key value b t → Outcome s a (s.step a) := by
    intro n key value b t hact
    rw [Cluster.step_of_isPut hact]
    split_ifs
    · exact .idle
    · exact .put n key value b t hact
  cases a with
  | write => exact hput (.inl ⟨rfl, rfl⟩)
  | delete => exact hput (.inr ⟨rfl, rfl, rfl⟩)
  | broadcast n key =>
    dsimp only [Cluster.step]
    split_ifs
    · exact .idle
    · exact .send n key
  | receive n i t =>
    dsimp only [Cluster.step]
    cases hi : s.network[i]? with
    | none => exact .idle
    | some remote =>
      dsimp only [MultiLeaderNode.handleMessage]
      split_ifs
      · exact .switch n (s.nodes n).state
      · exact .receive n i t rfl remote hi
  | pause n | resume n => exact .switch n _
  | setClockSkew n ms => exact .skew n ms

/-- Steps that leave the stores alone and send only what is stored. -/
lemma StoreStep.of_stored {s' : Cluster I K σ} {a : Action I K σ}
    (hstored : ∀ n key, s'.stored n key = s.stored n key) (hnet : ∀ e ∈ s'.network, s.Has e)
    (hwrites : s'.writes = s.writes) : StoreStep s a s' := by
  refine .frame hstored ?_ hwrites
  rintro e (he | ⟨n, key, he⟩)
  · exact hnet e he
  · exact .inr ⟨n, key, hstored n key ▸ he⟩

/-- Steps of one node that leave its store alone. -/
lemma StoreStep.of_store {n : I} {node : MultiLeaderNode I K (Value σ)} {a : Action I K σ}
    (hstore : node.store = (s.nodes n).store) : StoreStep s a (s.setNode n node) := by
  refine .of_stored (fun m key => ?_) (fun e he => .inl he) rfl
  exact Cluster.setNode_cases (P := fun x => x.store.data key = s.stored m key)
    (fun hm => hm ▸ congrArg (·.data key) hstore) fun _ => rfl

/-- **Every step is one of the four moves.** -/
theorem step_storeStep (s : Cluster I K σ) (a : Action I K σ) : StoreStep s a (s.step a) := by
  have h := step_outcome s a
  generalize s.step a = s' at h ⊢
  cases h with
  | idle => exact .of_stored (fun _ _ => rfl) (fun e he => .inl he) rfl
  | put n key value b t hact =>
    refine .put n key value b t hact ?_ ⟨?_, fun m hm => update_of_ne hm _ _, fun x hx => ?_⟩ rfl
    · exact congrArg (·.hlc) (update_self n _ s.nodes)
    · exact congrArg (·.store) (update_self n _ s.nodes)
    · exact (List.mem_append.mp hx).imp_right List.mem_singleton.mp
  | send n key =>
    refine .of_stored (fun _ _ => rfl) (fun e he => ?_) rfl
    exact (List.mem_append.mp he).imp_right fun he => ⟨n, key, Option.mem_toList.mp he⟩
  | receive n i t ha remote hi =>
    have hmem := List.mem_of_getElem? hi
    have hhlc := ((s.nodes n).receiveRemoteWrite_frame remote t).2.2.2
    rw [← s.setNode_self n ((s.nodes n).receiveRemoteWrite remote t)] at hhlc
    -- the store that the node has then
    have hset : ∀ {e}, ((s.nodes n).receiveRemoteWrite remote t).store = (s.nodes n).store.set e →
        SetStep s (s.setNode n ((s.nodes n).receiveRemoteWrite remote t)) n e := fun hstore =>
      ⟨s.setNode_self n _ ▸ hstore, fun m hm => s.setNode_of_ne hm _, fun x hx => .inl hx⟩
    rcases (s.nodes n).receiveRemoteWrite_step remote t with
      ⟨hstore, -⟩ | ⟨hstore, hle⟩ | ⟨loc, hloc, h₁, h₂, hstore⟩
    · exact .of_store hstore
    · exact .take n remote t hmem hhlc hle (hset hstore) rfl
    · exact .resolve n remote loc t hmem hhlc hloc h₁ h₂ (hset hstore) rfl
  | switch => exact .of_store rfl
  | skew n => exact .of_store (n := n) rfl

/-! ### One store changes -/

variable {s' : Cluster I K σ} {n : I} {e : KVEntry I K (Value σ)}

/-- A step leaves the stores alone or stores a version. -/
lemma StoreStep.stored_or_set {a : Action I K σ} (h : StoreStep s a s') :
    (∀ n key, s'.stored n key = s.stored n key) ∨ ∃ n e, SetStep s s' n e := by
  cases h with
  | frame hstored => exact .inl hstored
  | put _ _ _ _ _ _ _ hset | take _ _ _ _ _ _ hset | resolve _ _ _ _ _ _ _ _ _ hset =>
    exact .inr ⟨_, _, hset⟩

/-- Only a local operation is recorded. -/
lemma StoreStep.writes_or_put {a : Action I K σ} (h : StoreStep s a s') :
    s'.writes = s.writes ∨ ∃ n key value b t, a.IsPut n key value b t ∧
      s'.writes = s.writes ++ [s.putEntry n key value b t] := by
  cases h with
  | put n key value b t hact _ _ hwrites => exact .inr ⟨n, key, value, b, t, hact, hwrites⟩
  | frame _ _ hwrites | take _ _ _ _ _ _ _ hwrites | resolve _ _ _ _ _ _ _ _ _ _ hwrites =>
    exact .inl hwrites

section

variable (h : SetStep s s' n e)

include h

/-- The version is stored under the next version number. -/
lemma SetStep.stored_self :
    s'.stored n e.key = some { e with version := (s.nodes n).store.version + 1 } := by
  unfold Cluster.stored
  rw [h.self]
  exact update_self _ _ _

/-- Other keys and nodes keep what they store. -/
lemma SetStep.stored_of_ne {m : I} {key : K} (hne : ¬ (m = n ∧ key = e.key)) :
    s'.stored m key = s.stored m key := by
  unfold Cluster.stored
  by_cases hm : m = n
  · subst hm
    rw [h.self]
    exact update_of_ne (fun hk => hne ⟨rfl, hk⟩) _ _
  · rw [h.other m hm]

/-- The stored clock is that of the version. -/
lemma SetStep.clockOf_self : s'.clockOf n e.key = e.vclock.count :=
  (Cluster.clockOf_eq h.stored_self : _)

/-- Other keys and nodes keep their clocks. -/
lemma SetStep.clockOf_of_ne {m : I} {key : K} (hne : ¬ (m = n ∧ key = e.key)) :
    s'.clockOf m key = s.clockOf m key :=
  Cluster.clockOf_congr (h.stored_of_ne hne)

/-- What is stored was stored before or is the version. -/
lemma SetStep.of_stored {m : I} {key : K} {x : KVEntry I K (Value σ)}
    (hx : s'.stored m key = some x) :
    s.stored m key = some x ∨ key = e.key ∧ ∃ v, x = { e with version := v } := by
  by_cases hne : m = n ∧ key = e.key
  · obtain ⟨rfl, rfl⟩ := hne
    rw [h.stored_self, Option.some.injEq] at hx
    exact .inr ⟨rfl, _, hx.symm⟩
  · rw [h.stored_of_ne hne] at hx
    exact .inl hx

/-- So is what is stored or sent. -/
lemma SetStep.of_has {x : KVEntry I K (Value σ)} (hx : s'.Has x) :
    s.Has x ∨ ∃ v, x = { e with version := v } := by
  rcases hx with hx | ⟨m, key, hx⟩
  · rcases h.network x hx with hx | rfl
    · exact .inl (.inl hx)
    · exact .inr ⟨x.version, rfl⟩
  · exact (h.of_stored hx).imp (fun hx => .inr ⟨m, key, hx⟩) fun hx => hx.2

/-- No clock decreases if that of the version is not behind. -/
lemma SetStep.clockOf_le (hle : s.clockOf n e.key ≤ e.vclock.count) (m : I) (key : K) :
    s.clockOf m key ≤ s'.clockOf m key := by
  by_cases hne : m = n ∧ key = e.key
  · obtain ⟨rfl, rfl⟩ := hne
    rw [h.clockOf_self]
    exact hle
  · rw [h.clockOf_of_ne hne]

end

end moves

end Replication.MultiLeader
