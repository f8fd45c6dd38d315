import Replication.Leaderless.Entries

/-!
# Leaderless · Acks: what the acks of a write say

A node acknowledges an entry after it has applied it, and the sequence numbers of a coordinator keep
the acks of its calls apart. Without stand-ins, the nodes that a write counts are replicas that
cover its entry.
-/

set_option linter.unusedSectionVars false

namespace Replication.Leaderless

open Storage Node Clock Library Function List
open HashRing (Hashing)

variable {I K V : Type} [LinearOrder I] [DecidableEq K] [Inhabited V] [DecidableEq V]
  {msgs : List (Message I K V)} {n n' : LeaderlessNode I K V} {c c' : WriteCall I K V} {r : I}
  {H : Hashing I K} {s s' : Cluster I K V} {a : Action I K V}

/-- Nodes know their names and do not use stand-ins. -/
structure Strict (s : Cluster I K V) : Prop where
  id : ∀ n, (s.nodes n).id = n
  sloppy : ∀ n, (s.nodes n).sloppy = false

/-! ### Sequence numbers -/

/-- What the number `k` of a coordinator stands for: if it belongs to a write, that is a write of
the entry, and the node is one of its targets. -/
def Tagged (s : Cluster I K V) (n : I) (k : ℕ) (e : KVEntry I K V) (r : I) : Prop :=
  ∀ c, .write c ∈ s.calls → c.node = n → c.seqNo = k → k ≠ 0 → c.entry = e ∧ r ∈ c.targets

/-- A write gets its number when it is sent, the next one. -/
lemma WriteStep.seqNo (h : WriteStep H c n n' c' msgs) :
    c'.seqNo = c.seqNo ∧ c'.targets = c.targets ∨ c'.seqNo = n.seqNo + 1 := by
  cases h with
  | send => exact .inr rfl
  | _ => exact .inl ⟨rfl, rfl⟩

/-- **Numbers that have been given out keep their meaning.** -/
theorem Tagged.move {n : I} {k : ℕ} {e : KVEntry I K V} (htag : Tagged s n k e r)
    (h : Move H s a s') (hk : k ≤ (s.nodes n).seqNo) : Tagged s' n k e r := by
  intro c' hc' hnode hseq hne
  obtain ⟨i, hi⟩ := mem_iff_getElem?.mp hc'
  cases h.origin hi with
  | old _ hi => exact htag c' (mem_of_getElem? hi) hnode hseq hne
  | write c _ msgs hi hmove =>
    obtain ⟨hnode', hentry⟩ := hmove.same
    rcases hmove.seqNo with ⟨hseq', htargets⟩ | hfresh
    · rw [hentry, htargets]
      exact htag c (mem_of_getElem? hi) (hnode' ▸ hnode) (hseq' ▸ hseq) hne
    · -- a number that was given out is not the next one
      rw [← hnode', hnode] at hfresh
      omega
  | put => exact absurd hseq.symm hne

/-! ### Where messages come from -/

section messages

variable {n n' : LeaderlessNode I K V} {msgs : List (Message I K V)} {m : Message I K V}

/-- Without stand-ins a write sends its entry to its targets. -/
lemma WriteStep.msg_cases (h : WriteStep H c n n' c' msgs) (hsloppy : n.sloppy = false)
    (hm : m ∈ msgs) :
    ∃ t, m = .write n.id t c'.seqNo c'.entry none ∧ t ∈ c'.targets ∧ c'.seqNo = n.seqNo + 1 ∧
      n'.seqNo = n.seqNo + 1 := by
  cases h with
  | send =>
    obtain ⟨t, ht, rfl⟩ := mem_map.mp hm
    exact ⟨t, rfl, ht, rfl, rfl⟩
  | wait n₁ acked stage result msgs _ _ _ _ _ hmsgs =>
    rcases hmsgs with rfl | ⟨hs, -⟩
    · cases hm
    · simp [hsloppy] at hs
  | _ => cases hm

/-- A read sends requests and repairs. -/
lemma ReadStep.msg_cases {c c' : ReadCall I K V} {ev : Event I}
    (h : ReadStep H c n ev n' c' msgs) (hm : m ∈ msgs) :
    (∃ t d, m = .clientRead n.id t (n.seqNo + 1) c.key d ∧ n'.seqNo = n.seqNo + 1) ∨
      (∃ t e, m = .write n.id t (n.seqNo + 1) e none ∧ n'.seqNo = n.seqNo + 1) ∨
      ∃ t e, m = .readRepair n.id t e := by
  cases h with
  | send =>
    obtain ⟨t, -, rfl⟩ := mem_map.mp hm
    exact .inl ⟨t, _, rfl, rfl⟩
  | repair n₁ best msgs _ _ hn hmsgs =>
    obtain ⟨t, rfl⟩ := hmsgs _ hm
    obtain ⟨hlc, store, rfl⟩ := hn.frame
    exact .inr (.inr ⟨t, best, rfl⟩)
  | repairSync n₁ best staleNodes _ _ hn =>
    obtain ⟨t, -, rfl⟩ := mem_map.mp hm
    obtain ⟨hlc, store, rfl⟩ := hn.frame
    exact .inr (.inl ⟨t, best, rfl, rfl⟩)
  | _ => cases hm

/-- A node acknowledges an entry that it has applied, and answers a request with its version unless
a digest is asked for. -/
lemma Handled.reply_cases {msg : Message I K V} (h : Handled n msg n' msgs) (hm : m ∈ msgs) :
    (∃ sender k e, m = .writeAck n.id sender k e ∧ Covers n'.store e ∧
        (k = 0 ∨ ∃ o, msg = .write sender msg.target k e o)) ∨
      ∃ sender k key e hash d, m = .syncAck n.id sender k key e hash ∧
        msg = .clientRead sender msg.target k key d ∧ (d = false → e = n.store.getRaw key) := by
  cases h with
  | write sender target q e o t =>
    rw [mem_singleton.mp hm]
    exact .inl ⟨sender, q, e, rfl, covers_applyWrite n e t, .inr ⟨o, rfl⟩⟩
  | hintedHandoff sender target e t =>
    rw [mem_singleton.mp hm]
    exact .inl ⟨sender, 0, e, rfl, covers_applyWrite n e t, .inl rfl⟩
  | clientRead sender target q key digest =>
    rw [mem_singleton.mp hm]
    right
    unfold LeaderlessNode.readReply
    split
    case h_1 hraw => exact ⟨sender, q, key, none, none, digest, rfl, rfl, fun _ => hraw.symm⟩
    case h_2 e hraw =>
      split_ifs with hdigest
      · refine ⟨sender, q, key, _, _, digest, rfl, rfl, fun hfull => ?_⟩
        simp [hfull] at hdigest
      · exact ⟨sender, q, key, some e, none, digest, rfl, rfl, fun _ => hraw.symm⟩
  | _ => cases hm

end messages

/-- Where a message that a step sends comes from. -/
inductive Sent (s s' : Cluster I K V) (a : Action I K V) : Message I K V → Prop
  | write (i : ℕ) (c : WriteCall I K V) (t : I) (hcalls : s'.calls = s.calls.set i (.write c))
      (ht : t ∈ c.targets) (hseq : c.seqNo = (s.nodes c.node).seqNo + 1)
      (hseq' : (s'.nodes c.node).seqNo = (s.nodes c.node).seqNo + 1) :
      Sent s s' a (.write c.node t c.seqNo c.entry none)
  | repairWrite (i : ℕ) (n : I) (c : ReadCall I K V) (t : I) (e : KVEntry I K V)
      (hcalls : s'.calls = s.calls.set i (.read c))
      (hseq' : (s'.nodes n).seqNo = (s.nodes n).seqNo + 1) :
      Sent s s' a (.write n t ((s.nodes n).seqNo + 1) e none)
  | clientRead (i : ℕ) (ev : Event I) (c : ReadCall I K V) (t : I) (d : Bool)
      (ha : a = .advance i ev) (hi : s.calls[i]? = some (.read c))
      (hseq' : (s'.nodes c.node).seqNo = (s.nodes c.node).seqNo + 1) :
      Sent s s' a (.clientRead c.node t ((s.nodes c.node).seqNo + 1) c.key d)
  | readRepair (n t : I) (e : KVEntry I K V) : Sent s s' a (.readRepair n t e)
  | writeAck (r n : I) (k : ℕ) (e : KVEntry I K V) (hcovers : Covers (s'.nodes r).store e)
      (hk : k = 0 ∨ ∃ o, .write n r k e o ∈ s.network) : Sent s s' a (.writeAck r n k e)
  | syncAck (r n : I) (k : ℕ) (key : K) (e : Option (KVEntry I K V))
      (hash : Option (EntryHash I V)) (d : Bool) (hrequest : .clientRead n r k key d ∈ s.network)
      (he : d = false → e = (s.nodes r).store.getRaw key) : Sent s s' a (.syncAck r n k key e hash)
  | hintedHandoff (n t : I) (e : KVEntry I K V) : Sent s s' a (.hintedHandoff n t e)

/-- **Where messages come from.** -/
theorem Move.sent (h : Move H s a s') (hs : Strict s) {m : Message I K V} (hm : m ∈ s'.network) :
    m ∈ s.network ∨ Sent s s' a m := by
  cases h with
  | lose => exact .inl (mem_of_mem_eraseIdx hm)
  | write i c c' n' msgs _ hi hmove =>
    refine (mem_append.mp hm).imp_right fun hnew => ?_
    obtain ⟨t, rfl, ht, hseq, hseq'⟩ := hmove.msg_cases (hs.sloppy c.node) hnew
    rw [hs.id, ← hmove.same.1]
    rw [← hmove.same.1] at hseq hseq'
    refine .write i c' t rfl ht hseq ?_
    dsimp only
    rw [update_self]
    exact hseq'
  | read i ev c c' n' msgs ha hi hmove =>
    refine (mem_append.mp hm).imp_right fun hnew => ?_
    have hself : (update s.nodes c.node n' c.node).seqNo = n'.seqNo := by
      rw [update_self]
    rcases hmove.msg_cases hnew with ⟨t, d, rfl, hseq⟩ | ⟨t, e, rfl, hseq⟩ | ⟨t, e, rfl⟩
    · rw [hs.id]
      exact .clientRead i ev c t d ha hi (hself.trans hseq)
    · rw [hs.id]
      exact .repairWrite i c.node c' t e rfl (hself.trans hseq)
    · exact .readRepair _ t e
  | deliver j msg n' replies _ hj hmove =>
    have hmem := mem_of_getElem? hj
    rcases mem_append.mp hm with hold | hnew
    · exact .inl (mem_of_mem_eraseIdx hold)
    right
    rcases hmove.reply_cases hnew with ⟨sender, k, e, rfl, hcovers, hk⟩ |
      ⟨sender, k, key, e, hash, d, rfl, hmsg, he⟩
    · rw [hs.id]
      refine .writeAck msg.target sender k e ?_ (hk.imp_right fun ⟨o, ho⟩ => ⟨o, ho ▸ hmem⟩)
      dsimp only
      rw [update_self]
      exact hcovers
    · rw [hs.id]
      exact .syncAck msg.target sender k key e hash d (hmsg ▸ hmem) he
  | hints =>
    refine (mem_append.mp hm).imp_right fun hnew => ?_
    obtain ⟨x, -, rfl⟩ := mem_map.mp hnew
    exact .hintedHandoff _ x.1 x.2
  | _ => exact .inl hm

/-! ### Where channels get their contents from -/

/-- What a step does to the channels of a node: it opens an empty one under the next number, or lets
things in. -/
def TableStep {α : Type} (new : α → ℕ → Prop) (seq seq' : ℕ) (tab tab' : ℕ → Option (Chan α)) :
    Prop :=
  ∀ k ch', tab' k = some ch' → (k = seq + 1 ∧ seq' = seq + 1 ∧ ch'.buf = []) ∨
    ∃ ch, tab k = some ch ∧ ∀ x ∈ ch'.buf, x ∈ ch.buf ∨ new x k

namespace TableStep

variable {α : Type} {new : α → ℕ → Prop} {seq seq' q : ℕ} {tab : ℕ → Option (Chan α)}

lemma refl : TableStep new seq seq' tab tab :=
  fun _ ch hch => .inr ⟨ch, hch, fun _ hx => .inl hx⟩

/-- What is let in goes into a channel that is there. -/
lemma set {ch ch' : Chan α} (hch : tab q = some ch) (hbuf : ∀ x ∈ ch'.buf, x ∈ ch.buf ∨ new x q) :
    TableStep new seq seq' tab (update tab q (some ch')) := by
  intro k c hc
  right
  rcases update_eq_some hc with ⟨rfl, heq⟩ | hc
  · cases heq
    exact ⟨ch, hch, hbuf⟩
  · exact ⟨c, hc, fun _ hx => .inl hx⟩

/-- A channel is closed. -/
lemma close : TableStep new seq seq' tab (update tab q none) := by
  intro k ch hch
  rcases update_eq_some hch with ⟨-, heq⟩ | hch
  · cases heq
  · exact .inr ⟨ch, hch, fun _ hx => .inl hx⟩

/-- A channel is opened under the next number. -/
lemma opened {cap : ℕ} :
    TableStep new seq (seq + 1) tab (update tab (seq + 1) (some ⟨cap, []⟩)) := by
  intro k ch hch
  rcases update_eq_some hch with ⟨hk, heq⟩ | hch
  · cases heq
    exact .inl ⟨hk, rfl, rfl⟩
  · exact .inr ⟨ch, hch, fun _ hx => .inl hx⟩

end TableStep

/-- What a step does to the ack channels of a node. -/
abbrev AckStep (new : I → ℕ → Prop) (n n' : LeaderlessNode I K V) : Prop :=
  TableStep new n.seqNo n'.seqNo n.writeAcks n'.writeAcks

/-- What a step does to the response channels of a node. -/
abbrev RespStep (new : ReadResp I K V → ℕ → Prop) (n n' : LeaderlessNode I K V) : Prop :=
  TableStep new n.seqNo n'.seqNo n.readResps n'.readResps

section chanStep

variable {new : I → ℕ → Prop} {resp : ReadResp I K V → ℕ → Prop} {n n' : LeaderlessNode I K V}

lemma chanStep_applyWrite (e : KVEntry I K V) (t : ℤ) :
    AckStep new n (n.applyWrite e t) ∧ RespStep resp n (n.applyWrite e t) := by
  rw [applyWrite_frame]
  exact ⟨.refl, .refl⟩

/-- Taking an ack lets nothing in. -/
lemma chanStep_popAck {q : ℕ} (h : n.popAck q = some (r, n')) :
    AckStep new n n' ∧ RespStep resp n n' := by
  obtain ⟨ch, buf, hch, hbuf, rfl⟩ := popAck_eq_some h
  refine ⟨.set hch fun x hx => .inl ?_, .refl⟩
  rw [hbuf]
  exact mem_cons_of_mem r hx

/-- Taking a response lets nothing in. -/
lemma chanStep_popResp {q : ℕ} {r : ReadResp I K V} (h : n.popResp q = some (r, n')) :
    AckStep new n n' ∧ RespStep resp n n' := by
  obtain ⟨ch, buf, hch, hbuf, rfl⟩ := popResp_eq_some h
  refine ⟨.refl, .set hch fun x hx => .inl ?_⟩
  rw [hbuf]
  exact mem_cons_of_mem r hx

/-- A write lets nothing into channels. -/
lemma WriteStep.chanStep (h : WriteStep H c n n' c' msgs) :
    AckStep new n n' ∧ RespStep resp n n' := by
  cases h with
  | idle | hints => exact ⟨.refl, .refl⟩
  | apply t => exact chanStep_applyWrite c.entry t
  | send => exact ⟨.opened, .refl⟩
  | wait n₁ acked stage result msgs _ hnode =>
    rcases hnode with ⟨rfl, -⟩ | ⟨r, hpop, -⟩
    · exact ⟨.refl, .refl⟩
    · exact chanStep_popAck hpop
  | close => exact ⟨.close, .refl⟩

/-- A read lets nothing into channels. -/
lemma ReadStep.chanStep {c c' : ReadCall I K V} {ev : Event I} (h : ReadStep H c n ev n' c' msgs) :
    AckStep new n n' ∧ RespStep resp n n' := by
  cases h with
  | idle | readLocal | pick | fetch => exact ⟨.refl, .refl⟩
  | send => exact ⟨.refl, .opened⟩
  | resp n₁ r _ hpop => exact chanStep_popResp hpop
  | fail => exact ⟨.refl, .close⟩
  | repair n₁ best msgs _ _ hn =>
    obtain ⟨hlc, store, rfl⟩ := hn.frame
    exact ⟨.refl, .close⟩
  | repairSync n₁ best staleNodes _ _ hn =>
    obtain ⟨hlc, store, rfl⟩ := hn.frame
    exact ⟨.opened, .refl⟩
  | ack n₁ r _ hpop => exact chanStep_popAck hpop
  | leave => exact ⟨.close, .close⟩

/-- A message lets in what it carries. -/
lemma Handled.chanStep {msg : Message I K V} {replies : List (Message I K V)}
    (h : Handled n msg n' replies) (hack : ∀ r k e, msg = .writeAck r msg.target k e → new r k)
    (hresp : ∀ r k key, msg = .syncAck r.senderID msg.target k key r.entry r.hash → resp r k) :
    AckStep new n n' ∧ RespStep resp n n' := by
  cases h with
  | write _ _ _ e _ t | hintedHandoff _ _ e t | readRepair _ _ e t => exact chanStep_applyWrite e t
  | writeAck sender target q e =>
    unfold LeaderlessNode.pushAck
    split
    · exact ⟨.refl, .refl⟩
    case h_2 ch hch =>
      refine ⟨.set hch fun x hx => ?_, .refl⟩
      rcases Chan.mem_push hx with hx | rfl
      · exact .inl hx
      · exact .inr (hack x q e rfl)
  | clientRead => exact ⟨.refl, .refl⟩
  | syncAck sender target q key =>
    unfold LeaderlessNode.pushResp
    split
    · exact ⟨.refl, .refl⟩
    case h_2 ch hch =>
      refine ⟨.refl, .set hch fun x hx => ?_⟩
      rcases Chan.mem_push hx with hx | rfl
      · exact .inl hx
      · exact .inr (hresp _ q key rfl)

end chanStep

/-- What a step does to the channels of a node: what it lets in, comes from a message. -/
def Cluster.ChanStep (s : Cluster I K V) (n : I) (node : LeaderlessNode I K V) : Prop :=
  AckStep (fun r k => ∃ e, .writeAck r n k e ∈ s.network) (s.nodes n) node ∧
    RespStep (fun r k => ∃ key, .syncAck r.senderID n k key r.entry r.hash ∈ s.network)
      (s.nodes n) node

/-- **Channels get their contents from messages.** -/
theorem Move.chanStep (h : Move H s a s') : ∀ n, s.ChanStep n (s'.nodes n) := by
  have hupdate {m : I} {node : LeaderlessNode I K V} (hnode : s.ChanStep m node) :
      ∀ n, s.ChanStep n (update s.nodes m node n) :=
    (forall_update_iff s.nodes s.ChanStep).mpr ⟨hnode, fun _ _ => ⟨.refl, .refl⟩⟩
  cases h with
  | adjust | invoke | hints => exact hupdate ⟨.refl, .refl⟩
  | write _ _ _ _ _ _ _ hmove | read _ _ _ _ _ _ _ _ hmove => exact hupdate hmove.chanStep
  | deliver j msg n' replies _ hj hmove =>
    have hmem := mem_of_getElem? hj
    exact hupdate (hmove.chanStep (fun r k e heq => ⟨e, heq ▸ hmem⟩)
      fun r k key heq => ⟨key, heq ▸ hmem⟩)
  | _ => exact fun _ => ⟨.refl, .refl⟩

/-! ### The invariant -/

/-- What is known about a write without stand-ins. -/
structure WriteOK (H : Hashing I K) (s : Cluster I K V) (c : WriteCall I K V) : Prop where
  bound : c.seqNo ≤ (s.nodes c.node).seqNo
  unsent : c.seqNo = 0 ↔ c.stage = .apply ∨ c.stage = .send
  fresh : c.seqNo = 0 → c.acked = [] ∧ c.result = none
  applied : c.stage ≠ .apply → Covers (s.nodes c.node).store c.entry
  /-- It goes to the replicas of its key. -/
  placed : c.seqNo ≠ 0 → c.replicas = (s.nodes c.node).replicasFor H c.entry.key ∧
    c.targets = c.replicas.filter (fun r => r ≠ c.node) ∧
    c.selfIsReplica = decide (c.node ∈ c.replicas)
  acked : c.acked.Nodup ∧ ∀ r ∈ c.acked, r ∈ c.targets ∧ Covers (s.nodes r).store c.entry
  quorum : c.result = some .ok →
    (s.nodes c.node).writeQuorumMet c.acked c.replicas c.selfIsReplica = true

/-- Messages, channels and writes agree on the numbers of coordinators. -/
structure AckInv (H : Hashing I K) (s : Cluster I K V) : Prop where
  writes : ∀ n t k e o, .write n t k e o ∈ s.network →
    k ≤ (s.nodes n).seqNo ∧ Tagged s n k e t
  acks : ∀ r n k e, .writeAck r n k e ∈ s.network →
    k ≤ (s.nodes n).seqNo ∧ Covers (s.nodes r).store e ∧ Tagged s n k e r
  chans : ∀ n k ch, (s.nodes n).writeAcks k = some ch →
    k ≤ (s.nodes n).seqNo ∧ ∀ r ∈ ch.buf, ∃ e, Covers (s.nodes r).store e ∧ Tagged s n k e r
  calls : ∀ c, .write c ∈ s.calls → WriteOK H s c

/-- More acks count more nodes. -/
lemma insert_sublist_insert (a r : I) (l : List I) :
    (l.insert a).Sublist ((l.insert r).insert a) := by
  by_cases ha : a ∈ l
  · rw [insert_of_mem ha, insert_of_mem (mem_insert_of_mem ha)]
    exact sublist_insert r l
  by_cases har : a = r
  · subst har
    rw [insert_of_mem (mem_insert_self)]
  have ha' : a ∉ l.insert r := by
    rw [mem_insert_iff]
    exact not_or.mpr ⟨har, ha⟩
  rw [insert_of_not_mem ha, insert_of_not_mem ha']
  exact (sublist_insert r l).cons_cons a

/-- The nodes that a write counts: those that acknowledged it, and its coordinator if that is a
replica. -/
def LeaderlessNode.counted (n : LeaderlessNode I K V) (acked : List I) (selfIsReplica : Bool) :
    List I :=
  if selfIsReplica then acked.insert n.id else acked

lemma nodup_counted (n : LeaderlessNode I K V) {acked : List I} (h : acked.Nodup) (self : Bool) :
    (n.counted acked self).Nodup := by
  cases self
  · exact h
  · exact h.insert

/-- A node is counted as the coordinator or by its ack. -/
lemma mem_counted {acked : List I} {self : Bool} :
    r ∈ n.counted acked self ↔ self = true ∧ r = n.id ∨ r ∈ acked := by
  cases self
  · simp [LeaderlessNode.counted]
  · simp [LeaderlessNode.counted, mem_insert_iff]

/-- The quorum test, by the nodes that it counts. -/
lemma writeQuorumMet_eq (n : LeaderlessNode I K V) (acked replicas : List I) (self : Bool) :
    n.writeQuorumMet acked replicas self =
      match n.consistencyLevel with
      | .localQuorum => decide (regionQuorum n.regions replicas n.selfRegion ≤
          countInRegion n.regions (n.counted acked self) n.selfRegion)
      | .eachQuorum => (replicaRegions n.regions replicas).all fun region =>
        regionQuorum n.regions replicas region ≤
          countInRegion n.regions (n.counted acked self) region
      | .quorum => decide (n.qConfig.W ≤ (n.counted acked self).length) := rfl

/-- A quorum that is met stays met with one more ack. -/
lemma writeQuorumMet_insert {acked replicas : List I} {self : Bool}
    (h : n.writeQuorumMet acked replicas self = true) (r : I) :
    n.writeQuorumMet (acked.insert r) replicas self = true := by
  have hsub : (n.counted acked self).Sublist (n.counted (acked.insert r) self) := by
    cases self
    · exact sublist_insert r acked
    · exact insert_sublist_insert n.id r acked
  have hcount : ∀ region, countInRegion n.regions (n.counted acked self) region ≤
      countInRegion n.regions (n.counted (acked.insert r) self) region :=
    fun region => (hsub.filter _).length_le
  rw [writeQuorumMet_eq] at h ⊢
  cases hlevel : n.consistencyLevel with
  | quorum =>
    simp only [hlevel, decide_eq_true_eq] at h ⊢
    have := hsub.length_le
    omega
  | localQuorum =>
    simp only [hlevel, decide_eq_true_eq] at h ⊢
    exact h.trans (hcount n.selfRegion)
  | eachQuorum =>
    simp only [hlevel, all_eq_true, decide_eq_true_eq] at h ⊢
    exact fun region hregion => (h region hregion).trans (hcount region)

/-- An ack that a write takes is from a target that covers its entry. -/
lemma AckInv.popped (hinv : AckInv H s) (hc : .write c ∈ s.calls) (hsent : c.seqNo ≠ 0)
    (hpop : (s.nodes c.node).popAck c.seqNo = some (r, n')) :
    r ∈ c.targets ∧ Covers (s.nodes r).store c.entry := by
  obtain ⟨ch, buf, hch, hbuf, -⟩ := popAck_eq_some hpop
  have hr : r ∈ ch.buf := by
    rw [hbuf]
    exact mem_cons_self
  obtain ⟨e, hcovers, htag⟩ := (hinv.chans c.node c.seqNo ch hch).2 r hr
  obtain ⟨rfl, htarget⟩ := htag c hc rfl rfl hsent
  exact ⟨htarget, hcovers⟩

/-- The quorum test reads the settings only. -/
lemma writeQuorumMet_congr (h : n'.config = n.config) (acked replicas : List I) (self : Bool) :
    n'.writeQuorumMet acked replicas self = n.writeQuorumMet acked replicas self := by
  obtain ⟨hid, hq, -, -, hregions, hself, -, hlevel, -⟩ := Config.mk.inj h
  unfold LeaderlessNode.writeQuorumMet
  rw [hid, hq, hlevel, hregions, hself]

/-- Placement depends on the settings only. -/
lemma replicasFor_congr (h : n'.config = n.config) (key : K) :
    n'.replicasFor H key = n.replicasFor H key := by
  obtain ⟨-, hq, hall, hring, -⟩ := Config.mk.inj h
  unfold LeaderlessNode.replicasFor
  rw [hq, hall, hring]

/-- What is known about a write stays known while others move. -/
lemma WriteOK.move (hok : WriteOK H s c) (h : Move H s a s') : WriteOK H s' c where
  bound := hok.bound.trans (h.nodeStep c.node).seqNo
  unsent := hok.unsent
  fresh := hok.fresh
  applied hstage := covers_move h (hok.applied hstage)
  placed hsent := by
    rw [replicasFor_congr (h.nodeStep c.node).config]
    exact hok.placed hsent
  acked := ⟨hok.acked.1, fun r hr => ⟨(hok.acked.2 r hr).1, covers_move h (hok.acked.2 r hr).2⟩⟩
  quorum hresult := by
    rw [writeQuorumMet_congr (h.nodeStep c.node).config]
    exact hok.quorum hresult

/-- What is known about a sent write does not depend on its stage. -/
lemma WriteOK.setStage (hok : WriteOK H s c) (hsent : ¬ (c.stage = .apply ∨ c.stage = .send))
    {stage : WriteStage} (hstage : ¬ (stage = .apply ∨ stage = .send)) :
    WriteOK H s { c with stage := stage } where
  bound := hok.bound
  unsent := iff_of_false (fun h0 => hsent (hok.unsent.mp h0)) hstage
  fresh := hok.fresh
  applied _ := hok.applied fun h => hsent (.inl h)
  placed := hok.placed
  acked := hok.acked
  quorum := hok.quorum

/-- While a write waits, its acks are those of before, and possibly one more from a target that
covers the entry. -/
lemma AckInv.acked_wait (hinv : AckInv H s) (h : Move H s a s') (hc : .write c ∈ s.calls)
    (hsent : c.seqNo ≠ 0) {acked : List I} (hnode : c.Takes (s.nodes c.node) n' acked) :
    acked.Nodup ∧ (∀ r ∈ acked, r ∈ c.targets ∧ Covers (s'.nodes r).store c.entry) ∧
      ((s.nodes c.node).writeQuorumMet c.acked c.replicas c.selfIsReplica = true →
        (s.nodes c.node).writeQuorumMet acked c.replicas c.selfIsReplica = true) := by
  have hok := (hinv.calls c hc).move h
  rcases hnode with ⟨-, rfl⟩ | ⟨r, hpop, rfl⟩
  · exact ⟨hok.acked.1, hok.acked.2, fun hq => hq⟩
  obtain ⟨htarget, hcovers⟩ := hinv.popped hc hsent hpop
  refine ⟨hok.acked.1.insert, fun x hx => ?_, fun hq => writeQuorumMet_insert hq r⟩
  rcases mem_insert_iff.mp hx with rfl | hx
  · exact ⟨htarget, covers_move h hcovers⟩
  · exact hok.acked.2 x hx

/-- **What is known about a write stays known** when it moves. -/
theorem writeOK_move (h : Move H s a s') (hs : Strict s) (hinv : AckInv H s)
    (hc : .write c ∈ s.calls) (hmove : WriteStep H c (s.nodes c.node) (s'.nodes c.node) c' msgs) :
    WriteOK H s' c' := by
  have hok := (hinv.calls c hc).move h
  have hold := hinv.calls c hc
  generalize hn' : s'.nodes c.node = n' at hmove
  cases hmove with
  | idle => exact hok
  | apply t hstage =>
    have hseq : c.seqNo = 0 := hold.unsent.mpr (.inl hstage)
    refine ⟨hok.bound, iff_of_true hseq (.inr rfl), hok.fresh, fun _ => ?_, hok.placed,
      hok.acked, hok.quorum⟩
    dsimp only
    rw [hn']
    exact covers_applyWrite _ c.entry t
  | send hstage =>
    have hseq : c.seqNo = 0 := hold.unsent.mpr (.inr hstage)
    obtain ⟨hacked, hresult⟩ := hold.fresh hseq
    refine ⟨?_, ?_, ?_, fun _ => hok.applied ?_, fun _ => ⟨?_, ?_, ?_⟩, ?_, ?_⟩
    · dsimp only
      rw [hn']
    · dsimp only
      exact iff_of_false (Nat.succ_ne_zero _) (by decide)
    · exact fun h => absurd h (Nat.succ_ne_zero _)
    · rw [hstage]
      decide
    · exact (replicasFor_congr (h.nodeStep c.node).config c.entry.key).symm
    · dsimp only
      rw [hs.id]
    · dsimp only
      rw [hs.id]
    · dsimp only
      rw [hacked]
      exact ⟨nodup_nil, nofun⟩
    · intro hres
      dsimp only at hres
      simp [hresult] at hres
  | wait n₁ acked stage result msgs hwaits hnode hwaits' hdrain hresult =>
    have hsent : c.seqNo ≠ 0 := fun h0 => hwaits.sent (hold.unsent.mp h0)
    obtain ⟨hnodup, hfrom, hkept⟩ := hinv.acked_wait h hc hsent hnode
    refine ⟨hok.bound, iff_of_false hsent hwaits'.sent, fun h0 => absurd h0 hsent,
      fun _ => hok.applied fun happly => hwaits.sent (.inl happly), hok.placed, ⟨hnodup, hfrom⟩,
      fun hres => ?_⟩
    dsimp only at hres ⊢
    rw [writeQuorumMet_congr (h.nodeStep c.node).config]
    rcases hresult with rfl | ⟨-, hresult⟩
    · exact hkept (hold.quorum hres)
    · rcases hresult hres with hmet | hsloppy
      · exact hmet
      · simp [hs.sloppy] at hsloppy
  | close hstage | hints hstage =>
    refine hok.setStage ?_ (by decide)
    rw [hstage]
    decide

/-- The nodes that a successful write counts are replicas that cover its entry. -/
lemma WriteOK.covers_counted (h : WriteOK H s c) (hid : ∀ n, (s.nodes n).id = n)
    (hok : c.result = some .ok)
    (hr : r ∈ (s.nodes c.node).counted c.acked c.selfIsReplica) :
    r ∈ (s.nodes c.node).replicasFor H c.entry.key ∧ Covers (s.nodes r).store c.entry := by
  have hsent : c.seqNo ≠ 0 := fun h0 => absurd ((h.fresh h0).2.symm.trans hok) (by simp)
  obtain ⟨hreplicas, htargets, hself⟩ := h.placed hsent
  rw [← hreplicas]
  rcases mem_counted.mp hr with ⟨htrue, rfl⟩ | hr
  · rw [hid]
    have happly : c.stage ≠ .apply := fun hne => hsent (h.unsent.mpr (.inl hne))
    exact ⟨of_decide_eq_true (hself.symm.trans htrue), h.applied happly⟩
  · obtain ⟨htarget, hcovers⟩ := h.acked.2 r hr
    rw [htargets] at htarget
    exact ⟨mem_of_mem_filter htarget, hcovers⟩

/-- **Messages, channels and writes stay in agreement.** -/
theorem ackInv_move (h : Move H s a s') (hs : Strict s) (hinv : AckInv H s) : AckInv H s' := by
  have hseq : ∀ n, (s.nodes n).seqNo ≤ (s'.nodes n).seqNo := fun n => (h.nodeStep n).seqNo
  -- the next number belongs to no write yet
  have hfresh : ∀ {c n}, .write c ∈ s.calls → c.node = n → c.seqNo ≠ (s.nodes n).seqNo + 1 := by
    rintro c _ hc rfl
    exact (Nat.lt_succ_of_le (hinv.calls c hc).bound).ne
  refine ⟨fun n t k e o hm => ?_, fun r n k e hm => ?_, fun n k ch hch => ?_, fun c' hc' => ?_⟩
  · rcases h.sent hs hm with hm | hsent
    · obtain ⟨hk, htag⟩ := hinv.writes n t k e o hm
      exact ⟨hk.trans (hseq n), htag.move h hk⟩
    · cases hsent with
      | write i c t hcalls ht hnext =>
        refine ⟨by omega, fun x hx hnode hk _ => ?_⟩
        rw [hcalls] at hx
        rcases mem_or_eq_of_mem_set hx with hx | hx
        · exact absurd (hk.trans hnext) (hfresh hx hnode)
        · cases hx
          exact ⟨rfl, ht⟩
      | repairWrite i n c t e hcalls =>
        refine ⟨by omega, fun x hx hnode hk _ => ?_⟩
        rw [hcalls] at hx
        rcases mem_or_eq_of_mem_set hx with hx | hx
        · exact absurd hk (hfresh hx hnode)
        · cases hx
  · rcases h.sent hs hm with hm | hsent
    · obtain ⟨hk, hcovers, htag⟩ := hinv.acks r n k e hm
      exact ⟨hk.trans (hseq n), covers_move h hcovers, htag.move h hk⟩
    · cases hsent with
      | writeAck r n k e hcovers hk =>
        rcases hk with rfl | ⟨o, hm⟩
        · exact ⟨Nat.zero_le _, hcovers, fun c _ _ _ hne => absurd rfl hne⟩
        · obtain ⟨hk, htag⟩ := hinv.writes n r k e o hm
          exact ⟨hk.trans (hseq n), hcovers, htag.move h hk⟩
  · rcases (h.chanStep n).1 k ch hch with ⟨hk, hnext, hbuf⟩ | ⟨ch₀, hch₀, hbuf⟩
    · refine ⟨by omega, fun r hr => ?_⟩
      simp [hbuf] at hr
    · obtain ⟨hk, hold⟩ := hinv.chans n k ch₀ hch₀
      refine ⟨hk.trans (hseq n), fun r hr => ?_⟩
      rcases hbuf r hr with hr | ⟨e, hm⟩
      · obtain ⟨e, hcovers, htag⟩ := hold r hr
        exact ⟨e, covers_move h hcovers, htag.move h hk⟩
      · obtain ⟨-, hcovers, htag⟩ := hinv.acks r n k e hm
        exact ⟨e, covers_move h hcovers, htag.move h hk⟩
  · obtain ⟨i, hi⟩ := mem_iff_getElem?.mp hc'
    cases h.origin hi with
    | old _ hi => exact (hinv.calls c' (mem_of_getElem? hi)).move h
    | write c _ msgs hi hmove => exact writeOK_move h hs hinv (mem_of_getElem? hi) hmove
    | put =>
      exact ⟨Nat.zero_le _, iff_of_true rfl (.inl rfl), fun _ => ⟨rfl, rfl⟩,
        fun hne => absurd rfl hne, fun hne => absurd rfl hne,
        ⟨nodup_nil, nofun⟩, fun hres => by cases hres⟩

/-- Everything agrees at first. -/
lemma ackInv_init {nodes : I → LeaderlessNode I K V} (hacks : ∀ n k, (nodes n).writeAcks k = none) :
    AckInv H (Cluster.init nodes) := by
  refine ⟨nofun, nofun, fun n k ch hch => ?_, nofun⟩
  have hnone : ((Cluster.init nodes).nodes n).writeAcks k = none := hacks n k
  simp [hnone] at hch

end Replication.Leaderless
