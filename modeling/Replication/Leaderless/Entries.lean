import Replication.Leaderless.Moves
import Replication.Library.Newest

/-!
# Leaderless · Entries: where versions come from

Every version is the entry of a client operation, and no store goes back to an older one.
-/

set_option linter.unusedSectionVars false

namespace Replication.Leaderless

open Storage Node Clock Library Function List
open HashRing (Hashing)

variable {I K V : Type} [LinearOrder I] [DecidableEq K] [Inhabited V] [DecidableEq V]
  {e : KVEntry I K V} {n : I} {src : KVEntry I K V → Prop} {tick : ℤ → Prop}
  {c c' : WriteCall I K V} {k : ℕ} {key : K} {msgs : List (Message I K V)} {t : ℤ} {H : Hashing I K}
  {s s' : Cluster I K V} {a : Action I K V}

/-! ### What a step leaves alone -/

/-- The settings of a node. -/
structure Config (I : Type) where
  id : I
  qConfig : QuorumConfig
  allNodes : List I
  ring : HashRing.Ring I
  regions : I → String
  selfRegion : String
  repairMode : ReadRepairMode
  /-- The quorum semantics of writes. -/
  consistencyLevel : ConsistencyLevel
  /-- Whether stand-ins may help to meet a write quorum. -/
  sloppy : Bool

/-- The settings of a node, which no step changes. -/
def LeaderlessNode.config (n : LeaderlessNode I K V) : Config I :=
  ⟨n.id, n.qConfig, n.allNodes, n.ring, n.regions, n.selfRegion, n.repairMode, n.consistencyLevel,
    n.sloppy⟩

lemma config_applyWrite (n : LeaderlessNode I K V) (e : KVEntry I K V) (t : ℤ) :
    (n.applyWrite e t).config = n.config := by
  rw [applyWrite_frame]
  rfl

lemma seqNo_applyWrite (n : LeaderlessNode I K V) (e : KVEntry I K V) (t : ℤ) :
    (n.applyWrite e t).seqNo = n.seqNo := by
  rw [applyWrite_frame]

/-- What any step does to a node: its settings stay, its counter does not go back, and its store and
clock are left alone, or take in an entry, or the clock gives a stamp. -/
structure NodeStep (src : KVEntry I K V → Prop) (tick : ℤ → Prop) (n n' : LeaderlessNode I K V) :
    Prop where
  config : n'.config = n.config
  seqNo : n.seqNo ≤ n'.seqNo
  data : (n'.store = n.store ∧ ∃ skew, n'.hlc = { n.hlc with skewNanos := skew }) ∨
    (∃ e t, src e ∧ n'.store = (n.applyWrite e t).store ∧
      n'.hlc = (n.hlc.update t e.timestamp).1) ∨
    ∃ t, tick t ∧ n'.store = n.store ∧ n'.hlc = (n.hlc.now t).1

section nodeStep

variable {src : KVEntry I K V → Prop} {tick : ℤ → Prop} {n n' : LeaderlessNode I K V}

/-- A step that leaves store and clock alone. -/
lemma NodeStep.keep (hconfig : n'.config = n.config) (hseq : n.seqNo ≤ n'.seqNo)
    (hstore : n'.store = n.store) (hhlc : n'.hlc = n.hlc) : NodeStep src tick n n' :=
  ⟨hconfig, hseq, .inl ⟨hstore, n.hlc.skewNanos, hhlc⟩⟩

lemma NodeStep.refl : NodeStep src tick n n := .keep (Eq.refl _) le_rfl (Eq.refl _) (Eq.refl _)

/-- A step that applies an entry. -/
lemma NodeStep.apply (he : src e) (hconfig : n'.config = (n.applyWrite e t).config)
    (hseq : (n.applyWrite e t).seqNo ≤ n'.seqNo) (hstore : n'.store = (n.applyWrite e t).store)
    (hhlc : n'.hlc = (n.applyWrite e t).hlc) : NodeStep src tick n n' := by
  refine ⟨hconfig.trans (config_applyWrite n e t), ?_, .inr (.inl ⟨e, t, he, hstore, ?_⟩)⟩
  · rw [← seqNo_applyWrite n e t]
    exact hseq
  · rw [hhlc, applyWrite_frame]

lemma nodeStep_popAck {q : ℕ} {r : I} (h : n.popAck q = some (r, n')) : NodeStep src tick n n' := by
  obtain ⟨ch, buf, -, -, rfl⟩ := popAck_eq_some h
  exact .keep rfl le_rfl rfl rfl

lemma nodeStep_popResp {q : ℕ} {r : ReadResp I K V} (h : n.popResp q = some (r, n')) :
    NodeStep src tick n n' := by
  obtain ⟨ch, buf, -, -, rfl⟩ := popResp_eq_some h
  exact .keep rfl le_rfl rfl rfl

lemma nodeStep_pushAck (q : ℕ) (r : I) : NodeStep src tick n (n.pushAck q r) := by
  unfold LeaderlessNode.pushAck
  split <;> exact .keep rfl le_rfl rfl rfl

lemma nodeStep_pushResp (q : ℕ) (r : ReadResp I K V) : NodeStep src tick n (n.pushResp q r) := by
  unfold LeaderlessNode.pushResp
  split <;> exact .keep rfl le_rfl rfl rfl

/-- What a write does to its coordinator. -/
lemma WriteStep.nodeStep (h : WriteStep H c n n' c' msgs)
    (hsrc : c.stage = .apply → src c.entry) : NodeStep src tick n n' := by
  cases h with
  | idle => exact .refl
  | apply t hstage => exact .apply (hsrc hstage) rfl le_rfl rfl rfl
  | send => exact .keep rfl (Nat.le_succ _) rfl rfl
  | wait n₁ acked stage result msgs _ hnode =>
    obtain ⟨chans, rfl⟩ := hnode.frame
    exact .keep rfl le_rfl rfl rfl
  | close | hints => exact .keep rfl le_rfl rfl rfl

/-- What a read does to its coordinator. -/
lemma ReadStep.nodeStep {c c' : ReadCall I K V} {ev : Event I} (h : ReadStep H c n ev n' c' msgs)
    (hsrc : ∀ e, c.stage = .repair → c.best = some e → src e) : NodeStep src tick n n' := by
  cases h with
  | idle | readLocal | pick | fetch => exact .refl
  | send => exact .keep rfl (Nat.le_succ _) rfl rfl
  | resp n₁ r _ hpop => exact nodeStep_popResp hpop
  | fail | leave => exact .keep rfl le_rfl rfl rfl
  | repair n₁ best msgs hstage hbest hn =>
    rcases hn with rfl | ⟨t, rfl⟩
    · exact .keep rfl le_rfl rfl rfl
    · exact .apply (hsrc best hstage hbest) rfl le_rfl rfl rfl
  | repairSync n₁ best staleNodes hstage hbest hn =>
    rcases hn with rfl | ⟨t, rfl⟩
    · exact .keep rfl (Nat.le_succ _) rfl rfl
    · exact .apply (hsrc best hstage hbest) rfl (Nat.le_succ _) rfl rfl
  | ack n₁ r _ hpop => exact nodeStep_popAck hpop

/-- The entry that the receiver of a message applies. -/
def Message.toApply : Message I K V → Option (KVEntry I K V)
  | .write _ _ _ e _ => some e
  | .hintedHandoff _ _ e => some e
  | .readRepair _ _ e => some e
  | _ => none

/-- What a message does to its receiver. -/
lemma Handled.nodeStep {msg : Message I K V} {replies : List (Message I K V)}
    (h : Handled n msg n' replies) (hsrc : ∀ e, msg.toApply = some e → src e) :
    NodeStep src tick n n' := by
  cases h with
  | write _ _ _ e | hintedHandoff _ _ e | readRepair _ _ e =>
    exact .apply (hsrc e rfl) rfl le_rfl rfl rfl
  | writeAck sender target q => exact nodeStep_pushAck q sender
  | clientRead => exact .refl
  | syncAck sender target q => exact nodeStep_pushResp q _

end nodeStep

/-- The version that a step may apply, and where. -/
def Cluster.incoming (s : Cluster I K V) : Action I K V → Option (I × KVEntry I K V)
  | .advance i _ =>
    match s.calls[i]? with
    | none => none
    | some (.write c) => if c.stage = .apply then some (c.node, c.entry) else none
    | some (.read c) => if c.stage = .repair then c.best.map fun best => (c.node, best) else none
  | .deliver j _ => s.network[j]?.bind fun msg => msg.toApply.map fun e => (msg.target, e)
  | _ => none

/-- The times at which an action stamps an operation of a node. -/
def Action.Ticks (a : Action I K V) (n : I) (t : ℤ) : Prop :=
  ∃ key value tombstone, a.IsPut n key value tombstone t

/-- A node after a step: what it takes in is what the step may apply there. -/
abbrev Cluster.Stepped (s : Cluster I K V) (a : Action I K V) (m : I)
    (node : LeaderlessNode I K V) : Prop :=
  NodeStep (fun e => s.incoming a = some (m, e)) (a.Ticks m) (s.nodes m) node

/-- **What a step does to each node.** -/
theorem Move.nodeStep (h : Move H s a s') : ∀ m, s.Stepped a m (s'.nodes m) := by
  have hupdate {n : I} {node : LeaderlessNode I K V} (hnode : s.Stepped a n node) :
      ∀ m, s.Stepped a m (update s.nodes n node m) :=
    (forall_update_iff s.nodes (s.Stepped a)).mpr ⟨hnode, fun _ _ => .refl⟩
  cases h with
  | adjust n state skew => exact hupdate ⟨rfl, le_rfl, .inl ⟨rfl, skew, rfl⟩⟩
  | invoke n key value tombstone t ha =>
    exact hupdate ⟨rfl, le_rfl, .inr (.inr ⟨t, ⟨key, value, tombstone, ha⟩, rfl, rfl⟩)⟩
  | write i c c' n' msgs ha hi hmove =>
    obtain ⟨ev, rfl⟩ := ha
    refine hupdate (hmove.nodeStep fun hstage => ?_)
    simp only [Cluster.incoming, hi, hstage, if_true]
  | read i ev c c' n' msgs ha hi hmove =>
    subst ha
    refine hupdate (hmove.nodeStep fun e hstage hbest => ?_)
    simp only [Cluster.incoming, hi, hstage, if_true, hbest, Option.map_some]
  | deliver j msg n' replies ha hj hmove =>
    obtain ⟨t, rfl⟩ := ha
    refine hupdate (hmove.nodeStep fun e he => ?_)
    simp only [Cluster.incoming, hj, Option.bind_some, he, Option.map_some]
  | hints => exact hupdate (.keep rfl le_rfl rfl rfl)
  | _ => exact fun _ => .refl

/-! ### Stores never go back -/

/-- A store has a version of the key that the entry does not beat. -/
def Covers (store : Store I K V) (e : KVEntry I K V) : Prop :=
  ∃ x, store.contents e.key = some x ∧ e.stamp ≤ x.stamp

/-- A store has the entry, or a version that beats it. -/
def Holds (store : Store I K V) (e : KVEntry I K V) : Prop :=
  ∃ x, store.contents e.key = some x ∧ (x = e.content ∨ e.stamp < x.stamp)

instance (store : Store I K V) (e : KVEntry I K V) : Decidable (Holds store e) :=
  decidable_of_iff (∃ x ∈ store.contents e.key, x = e.content ∨ e.stamp < x.stamp) Iff.rfl

section covers

variable {n n' : LeaderlessNode I K V} {e : KVEntry I K V}

/-- An apply replaces a version only by one that beats it. -/
lemma applyWrite_replaces {x : KVEntry I K V} (hx : n.store.contents key = some x)
    (e' : KVEntry I K V) (t : ℤ) : ∃ y, (n.applyWrite e' t).store.contents key = some y ∧
      (y = x ∨ x.stamp < y.stamp) := by
  rw [applyWrite_contents]
  by_cases hkey : key = e'.key
  · subst hkey
    rw [Store.contents_eq_map] at hx
    obtain ⟨z, hz, rfl⟩ := Option.map_eq_some_iff.mp hx
    rw [update_self, hz, winner]
    split_ifs with hlt
    · exact ⟨e'.content, rfl, .inr hlt⟩
    · exact ⟨z.content, rfl, .inl rfl⟩
  · rw [update_of_ne hkey]
    exact ⟨x, hx, .inl rfl⟩

/-- **A version is only replaced by one that beats it**, in any step. -/
theorem NodeStep.replaces (h : NodeStep src tick n n') {x : KVEntry I K V}
    (hx : n.store.contents key = some x) :
    ∃ y, n'.store.contents key = some y ∧ (y = x ∨ x.stamp < y.stamp) := by
  rcases h.data with ⟨hstore, -⟩ | ⟨e', t, -, hstore, -⟩ | ⟨t, -, hstore, -⟩
  · exact ⟨x, hstore ▸ hx, .inl rfl⟩
  · rw [hstore]
    exact applyWrite_replaces hx e' t
  · exact ⟨x, hstore ▸ hx, .inl rfl⟩

/-- A node covers an entry that it has applied. -/
lemma covers_applyWrite (n : LeaderlessNode I K V) (e : KVEntry I K V) (t : ℤ) :
    Covers (n.applyWrite e t).store e := by
  refine ⟨(winner (n.store.data e.key) e).content, ?_, ?_⟩
  · rw [applyWrite_contents, update_self]
  · rw [stamp_content]
    cases n.store.data e.key with
    | none => exact le_rfl
    | some =>
      rw [winner]
      split_ifs with hlt
      · exact le_rfl
      · exact not_lt.mp hlt

/-- No step uncovers an entry. -/
lemma NodeStep.covers (h : NodeStep src tick n n') (hc : Covers n.store e) : Covers n'.store e := by
  obtain ⟨x, hx, hle⟩ := hc
  obtain ⟨y, hy, rfl | hlt⟩ := h.replaces hx
  · exact ⟨y, hy, hle⟩
  · exact ⟨y, hy, hle.trans hlt.le⟩

/-- A node that holds an entry goes on to do so. -/
lemma NodeStep.holds (h : NodeStep src tick n n') (hc : Holds n.store e) : Holds n'.store e := by
  obtain ⟨x, hx, hle⟩ := hc
  obtain ⟨y, hy, rfl | hlt⟩ := h.replaces hx
  · exact ⟨y, hy, hle⟩
  refine ⟨y, hy, .inr ?_⟩
  rcases hle with rfl | hle
  · exact hlt
  · exact hle.trans hlt

/-- A node that covers an entry has a version to show. -/
lemma Covers.getRaw (h : Covers n.store e) :
    ∃ x, n.store.getRaw e.key = some x ∧ e.stamp ≤ x.stamp := by
  obtain ⟨c, hc, hle⟩ := h
  rw [Store.contents_eq_map] at hc
  obtain ⟨x, hx, rfl⟩ := Option.map_eq_some_iff.mp hc
  exact ⟨x, hx, hle⟩

end covers

/-- **Stores never go back**: what a node covers, it covers after any step. -/
theorem covers_move (h : Move H s a s') (hc : Covers (s.nodes n).store e) :
    Covers (s'.nodes n).store e :=
  (h.nodeStep n).covers hc

/-- What a node holds, it holds after any step. -/
lemma holds_move (h : Move H s a s') (hc : Holds (s.nodes n).store e) :
    Holds (s'.nodes n).store e :=
  (h.nodeStep n).holds hc

/-! ### Calls -/

/-- The newest version is the first one with the largest stamp. -/
lemma newest_eq_argmax (responses : List (KVEntry I K V)) :
    newest responses = responses.argmax KVEntry.stamp := by
  cases responses with
  | nil => rfl
  | cons =>
    rw [foldl_argmax]
    simp only [newest, entryWins_iff]

/-- A read compares its own version and those of the responders. -/
lemma mem_responses {c : ReadCall I K V} :
    e ∈ c.responses ↔ c.localEntry = some e ∨ ∃ r ∈ c.remoteResps, r.entry = some e := by
  rw [ReadCall.responses, mem_append, Option.mem_toList, mem_filterMap]

/-- Where a call comes from: it was there, has been moved, or is new. -/
inductive Origin (H : Hashing I K) (s : Cluster I K V) (a : Action I K V) (s' : Cluster I K V)
    (k : ℕ) : Call I K V → Prop
  | old (x : Call I K V) (hk : s.calls[k]? = some x) : Origin H s a s' k x
  | write (c c' : WriteCall I K V) (msgs : List (Message I K V))
      (hk : s.calls[k]? = some (.write c))
      (hmove : WriteStep H c (s.nodes c.node) (s'.nodes c.node) c' msgs) :
      Origin H s a s' k (.write c')
  | read (ev : Event I) (c c' : ReadCall I K V) (msgs : List (Message I K V))
      (ha : a = .advance k ev) (hk : s.calls[k]? = some (.read c))
      (hmove : ReadStep H c (s.nodes c.node) ev (s'.nodes c.node) c' msgs)
      (hnetwork : s'.network = s.network ++ msgs) : Origin H s a s' k (.read c')
  | put (n : I) (key : K) (value : V) (b : Bool) (t : ℤ) (ha : a.IsPut n key value b t)
      (hnode : s'.nodes n = ((s.nodes n).newEntry key value b t).1) :
      Origin H s a s' k (.write (.start n ((s.nodes n).newEntry key value b t).2))
  | get (n : I) (key : K) : Origin H s a s' k (.read (.start n key))

/-- **Where a call comes from**, in one step. -/
theorem Move.origin (h : Move H s a s') {x : Call I K V} (hk : s'.calls[k]? = some x) :
    Origin H s a s' k x := by
  cases h with
  | invoke n key value b t ha =>
    rcases getElem?_concat_inv hk with ⟨-, rfl⟩ | hk
    · exact .put n key value b t ha (update_self ..)
    · exact .old x hk
  | startRead n key =>
    rcases getElem?_concat_inv hk with ⟨-, rfl⟩ | hk
    · exact .get n key
    · exact .old x hk
  | write i c c' n' msgs _ hi hmove =>
    rcases getElem?_set_inv hk with ⟨rfl, rfl⟩ | ⟨-, hk⟩
    · refine .write c c' msgs hi ?_
      dsimp only
      rw [update_self]
      exact hmove
    · exact .old x hk
  | read i ev c c' n' msgs ha hi hmove =>
    rcases getElem?_set_inv hk with ⟨rfl, rfl⟩ | ⟨-, hk⟩
    · refine .read ev c c' msgs ha hi ?_ rfl
      dsimp only
      rw [update_self]
      exact hmove
    · exact .old x hk
  | _ => exact .old x hk

/-- The `i`-th call, if it is a write. -/
def Cluster.writeOf (s : Cluster I K V) (i : ℕ) : Option (WriteCall I K V) :=
  match s.calls[i]? with
  | some (.write w) => some w
  | _ => none

lemma calls_of_writeOf {i : ℕ} (h : c ∈ s.writeOf i) : s.calls[i]? = some (.write c) := by
  unfold Cluster.writeOf at h
  split at h
  case h_1 hcall =>
    cases h
    exact hcall
  case h_2 => cases h

/-- A write keeps its coordinator and its entry. -/
lemma WriteStep.same {n n' : LeaderlessNode I K V} (h : WriteStep H c n n' c' msgs) :
    c'.node = c.node ∧ c'.entry = c.entry := by
  cases h <;> exact ⟨rfl, rfl⟩

/-- A write stays where it is. -/
lemma Move.write_stays (h : Move H s a s') (hk : s.calls[k]? = some (.write c)) :
    ∃ c', s'.calls[k]? = some (.write c') ∧ c'.node = c.node ∧ c'.entry = c.entry := by
  have hlt := (List.getElem?_eq_some_iff.mp hk).1
  have hset : ∀ {i : ℕ} {x : Call I K V}, k ≠ i → (s.calls.set i x)[k]? = some (.write c) := by
    intro i x hne
    rw [getElem?_set_ne hne.symm]
    exact hk
  have happend : ∀ x : Call I K V, (s.calls ++ [x])[k]? = some (.write c) := by
    intro x
    rw [getElem?_append_left hlt]
    exact hk
  cases h with
  | invoke | startRead => exact ⟨c, happend _, rfl, rfl⟩
  | write i c₀ c' n' msgs _ hi hmove =>
    by_cases hne : k = i
    · subst hne
      obtain rfl : c = c₀ := by
        rw [hk] at hi
        cases hi
        rfl
      refine ⟨c', ?_, hmove.same⟩
      rw [getElem?_set_self hlt]
    · exact ⟨c, hset hne, rfl, rfl⟩
  | read i ev c₀ c' n' msgs _ hi =>
    have hne : k ≠ i := by
      rintro rfl
      simp [hk] at hi
    exact ⟨c, hset hne, rfl, rfl⟩
  | _ => exact ⟨c, hk, rfl, rfl⟩

/-! ### Stamps identify operations -/

/-- A version is the entry of a client operation. -/
def Cluster.Known (s : Cluster I K V) (e : KVEntry I K V) : Prop :=
  ∃ c, .write c ∈ s.calls ∧ c.entry.content = e

/-- Operations are not forgotten. -/
lemma Cluster.Known.move (hknown : s.Known e) (h : Move H s a s') : s'.Known e := by
  obtain ⟨c, hc, rfl⟩ := hknown
  obtain ⟨k, hk⟩ := mem_iff_getElem?.mp hc
  obtain ⟨c', hk', -, hentry⟩ := h.write_stays hk
  exact ⟨c', mem_of_getElem? hk', by rw [hentry]⟩

/-- Hybrid clocks are well formed and above the stamps of their operations, and stamps identify
operations. -/
structure StampInv (s : Cluster I K V) : Prop where
  valid : ∀ n, (s.nodes n).hlc.Valid
  /-- Operations are stamped by their coordinator. -/
  stamped : ∀ c, .write c ∈ s.calls → c.entry.nodeID = c.node ∧ c.entry.version = 0 ∧
    0 ≤ c.entry.timestamp ∧ c.entry.timestamp ≤ (s.nodes c.node).hlc.value
  /-- Operations with the same stamp are the same. -/
  distinct : ∀ c c', .write c ∈ s.calls → .write c' ∈ s.calls → c.entry.stamp = c'.entry.stamp →
    c.entry = c'.entry

/-- There are no operations at first. -/
lemma stampInv_init (hvalid : ∀ n, (s.nodes n).hlc.Valid) (hcalls : s.calls = []) : StampInv s := by
  refine ⟨hvalid, fun c hc => ?_, fun c c' hc => ?_⟩
  · cases hcalls ▸ hc
  · cases hcalls ▸ hc

/-- Known versions with the same stamp are the same. -/
lemma StampInv.content_eq (h : StampInv s) {e' : KVEntry I K V} (he : s.Known e) (he' : s.Known e')
    (hstamp : e.stamp = e'.stamp) : e = e' := by
  obtain ⟨c, hc, rfl⟩ := he
  obtain ⟨c', hc', rfl⟩ := he'
  rw [stamp_content, stamp_content] at hstamp
  rw [h.distinct c c' hc hc' hstamp]

/-- The clock that stamps an operation is in its physical range. -/
def Cluster.stampsInRange (s : Cluster I K V) : Action I K V → Bool
  | .write n _ _ t => (s.nodes n).hlc.inRange t
  | .delete n _ t => (s.nodes n).hlc.inRange t
  | _ => true

/-- The clock that stamps an operation is in range. -/
lemma Cluster.inRange_of_isPut {value : V} {tombstone : Bool} (h : a.IsPut n key value tombstone t)
    (hr : s.stampsInRange a = true) : (s.nodes n).hlc.inRange t = true := by
  rcases h with ⟨rfl, -⟩ | ⟨rfl, -, -⟩ <;> exact hr

/-- Clocks only go forward. -/
lemma NodeStep.advances {node : LeaderlessNode I K V}
    (h : NodeStep src (a.Ticks n) (s.nodes n) node) (hr : s.stampsInRange a = true)
    (hv : (s.nodes n).hlc.Valid) : HLC.Advances (s.nodes n).hlc node.hlc := by
  rcases h.data with ⟨-, skew, hhlc⟩ | ⟨e, t, he, -, hhlc⟩ | ⟨t, ⟨key, value, b, ha⟩, -, hhlc⟩
  · rw [hhlc]
    exact ⟨⟨hv.physical, hv.logical⟩, le_rfl⟩
  · obtain ⟨hv', hlt, -⟩ := HLC.update_spec (t := t) hv e.timestamp
    rw [hhlc]
    exact ⟨hv', hlt.le⟩
  · obtain ⟨hv', heq, hlt⟩ := HLC.now_spec hv (Cluster.inRange_of_isPut ha hr)
    rw [hhlc]
    exact ⟨hv', (heq ▸ hlt).le⟩

/-- An operation is stamped above the clock of before. -/
lemma newEntry_stamp (hid : (s.nodes n).id = n) (hv : (s.nodes n).hlc.Valid) (key : K) (value : V)
    (b : Bool) (hr : (s.nodes n).hlc.inRange t = true) :
    ((s.nodes n).newEntry key value b t).2.nodeID = n ∧
      ((s.nodes n).newEntry key value b t).2.version = 0 ∧
      (s.nodes n).hlc.value < ((s.nodes n).newEntry key value b t).2.timestamp ∧
      ((s.nodes n).newEntry key value b t).2.timestamp =
        ((s.nodes n).newEntry key value b t).1.hlc.value := by
  obtain ⟨-, heq, hlt⟩ := HLC.now_spec hv hr
  exact ⟨hid, rfl, hlt, heq⟩

/-- A new operation has a new stamp. -/
lemma newEntry_ne_stamp (hinv : StampInv s) (hid : (s.nodes n).id = n) {value : V} {b : Bool}
    (hr : (s.nodes n).hlc.inRange t = true) (hc : .write c ∈ s.calls) :
    c.entry.stamp ≠ ((s.nodes n).newEntry key value b t).2.stamp := by
  intro heq
  obtain ⟨hts, hnode⟩ := KVEntry.stamp_eq_iff.mp heq
  obtain ⟨hnodeID, -, hlt, -⟩ := newEntry_stamp hid (hinv.valid n) key value b hr
  obtain ⟨hcn, -, -, hle⟩ := hinv.stamped c hc
  obtain rfl : c.node = n := by rw [← hcn, hnode, hnodeID]
  omega

/-- **Stamps identify operations**, in one step. -/
theorem stampInv_move (h : Move H s a s') (hid : ∀ n, (s.nodes n).id = n)
    (hr : s.stampsInRange a = true) (hinv : StampInv s) : StampInv s' := by
  have hadv : ∀ n, HLC.Advances (s.nodes n).hlc (s'.nodes n).hlc := fun n =>
    (h.nodeStep n).advances hr (hinv.valid n)
  -- an operation is an old one, or the one of this step
  have horigin : ∀ c', .write c' ∈ s'.calls →
      (∃ c, .write c ∈ s.calls ∧ c'.node = c.node ∧ c'.entry = c.entry) ∨
      ∃ n key value b t, a.IsPut n key value b t ∧
        c' = .start n ((s.nodes n).newEntry key value b t).2 ∧
        s'.nodes n = ((s.nodes n).newEntry key value b t).1 := by
    intro c' hc'
    obtain ⟨k, hk⟩ := mem_iff_getElem?.mp hc'
    cases h.origin hk with
    | old _ hk => exact .inl ⟨c', mem_of_getElem? hk, rfl, rfl⟩
    | write c _ msgs hk hmove => exact .inl ⟨c, mem_of_getElem? hk, hmove.same⟩
    | put n key value b t ha hnode => exact .inr ⟨n, key, value, b, t, ha, rfl, hnode⟩
  refine ⟨fun n => (hadv n).valid, fun c' hc' => ?_, fun c₁ c₂ hc₁ hc₂ heq => ?_⟩
  · rcases horigin c' hc' with ⟨c, hc, hnode, hentry⟩ | ⟨n, key, value, b, t, ha, rfl, hn⟩
    · obtain ⟨hcn, hver, hnn, hle⟩ := hinv.stamped c hc
      rw [hnode, hentry]
      exact ⟨hcn, hver, hnn, hle.trans (hadv c.node).le⟩
    · obtain ⟨hnode, hver, hlt, hval⟩ :=
        newEntry_stamp (hid n) (hinv.valid n) key value b (Cluster.inRange_of_isPut ha hr)
      have hnn := HLC.value_nonneg (hinv.valid n)
      refine ⟨hnode, hver, (hnn.trans_lt hlt).le, ?_⟩
      change ((s.nodes n).newEntry key value b t).2.timestamp ≤ (s'.nodes n).hlc.value
      rw [hn, hval]
  · rcases horigin c₁ hc₁ with ⟨d₁, hd₁, -, he₁⟩ | ⟨n, key, value, b, t, ha, rfl, hn⟩ <;>
      rcases horigin c₂ hc₂ with ⟨d₂, hd₂, -, he₂⟩ | ⟨n', key', value', b', t', ha', rfl, hn'⟩
    · rw [he₁, he₂] at heq ⊢
      exact hinv.distinct d₁ d₂ hd₁ hd₂ heq
    · rw [he₁] at heq
      exact absurd heq (newEntry_ne_stamp hinv (hid n') (Cluster.inRange_of_isPut ha' hr) hd₁)
    · rw [he₂] at heq
      exact absurd heq.symm (newEntry_ne_stamp hinv (hid n) (Cluster.inRange_of_isPut ha hr) hd₂)
    · -- both are the operation of the action
      rcases ha with ⟨rfl, rfl⟩ | ⟨rfl, rfl, rfl⟩ <;>
        rcases ha' with ⟨ha', rfl⟩ | ⟨ha', rfl, rfl⟩ <;>
        cases ha' <;> rfl

end Replication.Leaderless
