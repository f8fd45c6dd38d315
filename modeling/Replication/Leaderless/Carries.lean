import Replication.Leaderless.Entries

/-!
# Leaderless · Carries: what is passed on

Reads, answers and repairs pass on what nodes store, whole or as metadata. A property `Q` of stored
versions and a property `Q'` of shown ones are followed through a cluster together: what is stored
may be shown, and what is shown with a value or a tombstone may be stored.

* `Passes` — when two properties go together. Metadata is shown only where digests are asked for,
  so that is asked of the properties only if `digests`.
* `passes_step` — a step keeps both, if the entries of new operations have the first.
* `Cluster.All` — the case without digests, where one property of contents does for both.
* `known_step` — every version is the entry of a client operation.
-/

set_option linter.unusedSectionVars false

namespace Replication.Leaderless

open Storage Node Clock Library Function List
open HashRing (Hashing)

variable {I K V : Type} [LinearOrder I] [DecidableEq K] [Inhabited V] [DecidableEq V]
  {best e : KVEntry I K V} {c c' : ReadCall I K V} {msgs : List (Message I K V)} {digests : Prop}
  {Q Q' : KVEntry I K V → Prop} {H : Hashing I K} {s s' : Cluster I K V} {a : Action I K V}

/-! ### Stored and shown versions -/

/-- A property of stored versions and one of shown versions that go together. Metadata is shown only
if `digests`. -/
structure Passes (digests : Prop) (Q Q' : KVEntry I K V → Prop) : Prop where
  version : ∀ e v, Q e → Q { e with version := v }
  full : ∀ e, Q e → Q' e
  metadata : digests → ∀ e, Q e → Q' (metadata e)
  /-- What is shown with a value or a tombstone may be stored. -/
  content : ∀ e, Q' e → hasContent e = true → Q e

/-- The version in a message. -/
def Message.entry : Message I K V → Option (KVEntry I K V)
  | .write _ _ _ e _ => some e
  | .hintedHandoff _ _ e => some e
  | .writeAck _ _ _ e => some e
  | .clientRead _ _ _ _ _ => none
  | .syncAck _ _ _ _ e _ => e
  | .readRepair _ _ e => some e

/-- What a node stores, buffers as hints and has been shown. -/
structure LeaderlessNode.Carries (Q Q' : KVEntry I K V → Prop) (n : LeaderlessNode I K V) :
    Prop where
  store : ∀ key x, n.store.getRaw key = some x → Q x
  hints : ∀ h ∈ n.hints, Q h.2
  resps : ∀ q ch, n.readResps q = some ch → ∀ r ∈ ch.buf, ∀ e, r.entry = some e → Q' e

/-- A message answers a read. -/
def Message.isAnswer : Message I K V → Bool
  | .syncAck _ _ _ _ _ _ => true
  | _ => false

/-- The version in a message: answers show one, other messages carry one. -/
def Message.Carries (Q Q' : KVEntry I K V → Prop) (m : Message I K V) : Prop :=
  ∀ e, m.entry = some e → if m.isAnswer then Q' e else Q e

/-- What a read has been shown. -/
structure ReadCall.Carries (Q' : KVEntry I K V → Prop) (c : ReadCall I K V) : Prop where
  localEntry : ∀ e, c.localEntry = some e → Q' e
  resps : ∀ r ∈ c.remoteResps, ∀ e, r.entry = some e → Q' e
  best : ∀ e, c.best = some e → Q' e

/-- A message asks for a digest. -/
def Message.isDigest : Message I K V → Bool
  | .clientRead _ _ _ _ digest => digest
  | _ => false

/-- A message carries what it may, and asks for a digest only if `digests`. -/
def Message.Passes (digests : Prop) (Q Q' : KVEntry I K V → Prop) (m : Message I K V) : Prop :=
  m.Carries Q Q' ∧ (m.isDigest = true → digests)

/-- What a read compares, it has been shown. -/
lemma ReadCall.Carries.response {Q' : KVEntry I K V → Prop} (h : c.Carries Q')
    (he : e ∈ c.responses) : Q' e := by
  rcases mem_responses.mp he with hloc | ⟨r, hr, hre⟩
  · exact h.localEntry e hloc
  · exact h.resps r hr e hre

section passes

variable {n n' : LeaderlessNode I K V} {m : Message I K V}

/-- A message with an entry that may be stored. -/
lemma Message.passes_of_entry (hm : m.entry = some e) (hfull : m.isAnswer = false) (he : Q e) :
    m.Passes digests Q Q' := by
  cases m with
  | clientRead => cases hm
  | syncAck => cases hfull
  | _ =>
    cases hm
    exact ⟨fun x hx => Option.some.inj hx ▸ he, fun h => by cases h⟩

/-- A message without an entry. -/
lemma Message.passes_of_none (hm : m.entry = none) (hdigest : m.isDigest = true → digests) :
    m.Passes digests Q Q' := by
  refine ⟨fun e he => ?_, hdigest⟩
  cases hm.symm.trans he

lemma passes_nil : ∀ m ∈ ([] : List (Message I K V)), m.Passes digests Q Q' :=
  nofun

/-- What may be stored may be applied. -/
lemma LeaderlessNode.Carries.applyWrite (hQ : Passes digests Q Q') (h : n.Carries Q Q') (he : Q e)
    (t : ℤ) : (n.applyWrite e t).Carries Q Q' := by
  have hset : ∀ key x, (n.store.set e).getRaw key = some x → Q x := by
    intro key x hx
    rcases Store.of_data_set hx with ⟨-, rfl⟩ | ⟨-, hx⟩
    · exact hQ.version e _ he
    · exact h.store key x hx
  refine ⟨fun key x hx => ?_, ?_, ?_⟩
  · dsimp only [LeaderlessNode.applyWrite] at hx
    split at hx
    · exact hset key x hx
    · split_ifs at hx
      · exact hset key x hx
      · exact h.store key x hx
  · rw [hints_applyWrite]
    exact h.hints
  · rw [applyWrite_frame]
    exact h.resps

/-- What is put into a channel may be shown. -/
lemma LeaderlessNode.Carries.setResps (h : n.Carries Q Q') (q : ℕ)
    {o : Option (Chan (ReadResp I K V))}
    (ho : ∀ ch, o = some ch → ∀ r ∈ ch.buf, ∀ e, r.entry = some e → Q' e) :
    ({ n with readResps := update n.readResps q o } :
      LeaderlessNode I K V).Carries Q Q' := by
  refine ⟨h.store, h.hints, fun q' ch hch => ?_⟩
  rcases update_eq_some hch with ⟨-, hch⟩ | hch
  · exact ho ch hch
  · exact h.resps q' ch hch

lemma LeaderlessNode.Carries.closeResps (h : n.Carries Q Q') (q : ℕ) :
    ({ n with readResps := update n.readResps q none } :
      LeaderlessNode I K V).Carries Q Q' :=
  h.setResps q fun _ hch => by cases hch

lemma carries_popAck {q : ℕ} {r : I} (hpop : n.popAck q = some (r, n')) (h : n.Carries Q Q') :
    n'.Carries Q Q' := by
  obtain ⟨ch, buf, -, -, rfl⟩ := popAck_eq_some hpop
  exact ⟨h.store, h.hints, h.resps⟩

/-- A response that is taken has been shown. -/
lemma carries_popResp {q : ℕ} {r : ReadResp I K V} (hpop : n.popResp q = some (r, n'))
    (h : n.Carries Q Q') : n'.Carries Q Q' ∧ ∀ e, r.entry = some e → Q' e := by
  obtain ⟨ch, buf, hch, hbuf, rfl⟩ := popResp_eq_some hpop
  have hall := h.resps q ch hch
  rw [hbuf] at hall
  refine ⟨h.setResps q ?_, hall r mem_cons_self⟩
  rintro ch' heq x hx
  cases heq
  exact hall x (mem_cons_of_mem r hx)

/-- A response that arrives is shown. -/
lemma carries_pushResp (h : n.Carries Q Q') (q : ℕ) {r : ReadResp I K V}
    (hr : ∀ e, r.entry = some e → Q' e) : (n.pushResp q r).Carries Q Q' := by
  unfold LeaderlessNode.pushResp
  split
  · exact h
  case h_2 ch hch =>
    refine h.setResps q ?_
    rintro ch' heq x hx
    cases heq
    rcases Chan.mem_push hx with hx | rfl
    · exact h.resps q ch hch x hx
    · exact hr

lemma ReadCall.Carries.of_eq (h : c.Carries Q') (hlocal : c'.localEntry = c.localEntry)
    (hresps : c'.remoteResps = c.remoteResps) (hbest : c'.best = c.best) : c'.Carries Q' :=
  ⟨hlocal ▸ h.localEntry, hresps ▸ h.resps, hbest ▸ h.best⟩

/-- A write passes on its own entry. -/
lemma WriteStep.passes {c c' : WriteCall I K V} (h : WriteStep H c n n' c' msgs)
    (hQ : Passes digests Q Q') (hn : n.Carries Q Q') (hc : Q c.entry) :
    n'.Carries Q Q' ∧ ∀ m ∈ msgs, m.Passes digests Q Q' := by
  cases h with
  | idle => exact ⟨hn, passes_nil⟩
  | apply t => exact ⟨hn.applyWrite hQ hc t, passes_nil⟩
  | send =>
    refine ⟨⟨hn.store, hn.hints, hn.resps⟩, fun m hm => ?_⟩
    obtain ⟨t, -, rfl⟩ := mem_map.mp hm
    exact Message.passes_of_entry rfl rfl hc
  | wait n₁ acked stage result msgs _ hnode _ _ _ hmsgs =>
    refine ⟨?_, ?_⟩
    · obtain ⟨chans, rfl⟩ := hnode.frame
      exact ⟨hn.store, hn.hints, hn.resps⟩
    · rcases hmsgs with rfl | ⟨-, hmsgs⟩
      · exact passes_nil
      · intro m hm
        obtain ⟨t, o, rfl⟩ := hmsgs m hm
        exact Message.passes_of_entry rfl rfl hc
  | close => exact ⟨⟨hn.store, hn.hints, hn.resps⟩, passes_nil⟩
  | hints =>
    refine ⟨⟨hn.store, fun h hh => ?_, hn.resps⟩, passes_nil⟩
    rcases mem_append.mp hh with hh | hh
    · exact hn.hints h hh
    · obtain ⟨t, -, rfl⟩ := mem_map.mp hh
      exact hc

/-- A coordinator repairs its copy only with a value or a tombstone. -/
lemma LeaderlessNode.Carries.repaired (hQ : Passes digests Q Q') (hn : n.Carries Q Q')
    (hrep : n.Repairs n' best) (hbest : Q' best)
    (hquiet : hasContent best = false → n'.store = n.store) : n'.Carries Q Q' := by
  rcases hrep with rfl | ⟨t, rfl⟩
  · exact hn
  cases hcontent : hasContent best with
  | true => exact hn.applyWrite hQ (hQ.content best hbest hcontent) t
  | false =>
    rw [applyWrite_frame, hquiet hcontent]
    exact ⟨hn.store, hn.hints, hn.resps⟩

/-- **A read passes on what it has been shown**, if it repairs only with values and tombstones. -/
theorem ReadStep.passes {ev : Event I} (h : ReadStep H c n ev n' c' msgs) (hQ : Passes digests Q Q')
    (hmode : n.repairMode = .digest → digests) (hn : n.Carries Q Q') (hc : c.Carries Q')
    (hquiet : ∀ best, c.stage = .repair → c.best = some best → hasContent best = false →
      n'.store = n.store ∧ msgs = []) :
    n'.Carries Q Q' ∧ c'.Carries Q' ∧ ∀ m ∈ msgs, m.Passes digests Q Q' := by
  -- a read that sends repairs has something to repair with
  have hQbest : ∀ best, c.stage = .repair → c.best = some best → msgs ≠ [] → Q best := by
    intro best hstage hbest hmsgs
    refine hQ.content best (hc.best best hbest) ?_
    by_contra hnone
    exact hmsgs (hquiet best hstage hbest (Bool.eq_false_iff.mpr hnone)).2
  cases h with
  | idle => exact ⟨hn, hc, passes_nil⟩
  | readLocal =>
    exact ⟨hn, ⟨fun e he => hQ.full e (hn.store _ e he), hc.resps, hc.best⟩, passes_nil⟩
  | send t =>
    refine ⟨?_, hc.of_eq rfl rfl rfl, fun m hm => ?_⟩
    · refine LeaderlessNode.Carries.setResps (n := { n with seqNo := n.seqNo + 1 })
        ⟨hn.store, hn.hints, hn.resps⟩ (n.seqNo + 1) ?_
      rintro ch heq r hr
      cases heq
      cases hr
    · obtain ⟨t, -, rfl⟩ := mem_map.mp hm
      exact Message.passes_of_none rfl fun hdigest => hmode (of_decide_eq_true hdigest)
  | resp n₁ r _ hpop =>
    obtain ⟨hn', hr⟩ := carries_popResp hpop hn
    refine ⟨hn', ⟨hc.localEntry, fun x hx => ?_, hc.best⟩, passes_nil⟩
    rcases mem_append.mp hx with hx | hx
    · exact hc.resps x hx
    · rw [mem_singleton.mp hx]
      exact hr
  | pick best stage _ _ hbest =>
    refine ⟨hn, ⟨hc.localEntry, hc.resps, fun e he => ?_⟩, passes_nil⟩
    cases he
    rw [newest_eq_argmax] at hbest
    exact hc.response (argmax_mem hbest)
  | fail => exact ⟨hn.closeResps _, hc.of_eq rfl rfl rfl, passes_nil⟩
  | fetch best _ hbest =>
    refine ⟨hn, ⟨hc.localEntry, hc.resps, fun e he => ?_⟩, passes_nil⟩
    cases he
    exact hbest.elim (hc.best best) fun hraw => hQ.full best (hn.store _ best hraw)
  | repair n₁ best msgs hstage hbest hrep hmsgs =>
    have hn₁ := hn.repaired hQ hrep (hc.best best hbest)
      fun hnone => (hquiet best hstage hbest hnone).1
    refine ⟨hn₁.closeResps _, hc.of_eq rfl rfl rfl, fun m hm => ?_⟩
    obtain ⟨t, rfl⟩ := hmsgs m hm
    exact Message.passes_of_entry rfl rfl (hQbest best hstage hbest (ne_nil_of_mem hm))
  | repairSync n₁ best staleNodes hstage hbest hrep =>
    have hn₁ := hn.repaired hQ hrep (hc.best best hbest)
      fun hnone => (hquiet best hstage hbest hnone).1
    refine ⟨⟨hn₁.store, hn₁.hints, hn₁.resps⟩, hc.of_eq rfl rfl rfl, fun m hm => ?_⟩
    have hsent := hQbest best hstage hbest (ne_nil_of_mem hm)
    obtain ⟨t, -, rfl⟩ := mem_map.mp hm
    exact Message.passes_of_entry rfl rfl hsent
  | ack n₁ r _ hpop => exact ⟨carries_popAck hpop hn, hc.of_eq rfl rfl rfl, passes_nil⟩
  | leave =>
    have hn' := hn.closeResps c.seqNo
    exact ⟨⟨hn'.store, hn'.hints, hn'.resps⟩, hc.of_eq rfl rfl rfl, passes_nil⟩

/-- A node passes on what it is sent, and shows what it stores. -/
lemma Handled.passes {msg : Message I K V} {replies : List (Message I K V)}
    (h : Handled n msg n' replies) (hQ : Passes digests Q Q') (hn : n.Carries Q Q')
    (hmsg : msg.Passes digests Q Q') : n'.Carries Q Q' ∧ ∀ m ∈ replies, m.Passes digests Q Q' := by
  cases h with
  | write sender target q e o t new hnew =>
    have he : Q e := hmsg.1 e rfl
    have hn' := hn.applyWrite hQ he t
    refine ⟨⟨hn'.store, fun h hh => ?_, hn'.resps⟩,
      forall_mem_singleton.mpr (Message.passes_of_entry rfl rfl he)⟩
    rcases mem_append.mp hh with hh | hh
    · exact hn.hints h hh
    rcases hnew with rfl | ⟨r, -, rfl⟩
    · cases hh
    · rw [mem_singleton.mp hh]
      exact he
  | hintedHandoff sender target e t =>
    have he : Q e := hmsg.1 e rfl
    exact ⟨hn.applyWrite hQ he t,
      forall_mem_singleton.mpr (Message.passes_of_entry rfl rfl he)⟩
  | writeAck =>
    refine ⟨?_, passes_nil⟩
    unfold LeaderlessNode.pushAck
    split
    · exact hn
    · exact ⟨hn.store, hn.hints, hn.resps⟩
  | clientRead sender target q key digest =>
    refine ⟨hn, forall_mem_singleton.mpr ?_⟩
    unfold LeaderlessNode.readReply
    cases hraw : n.store.getRaw key with
    | none => exact Message.passes_of_none rfl fun h => by cases h
    | some x =>
      have hx := hn.store key x hraw
      refine ⟨?_, fun h => by cases digest <;> cases h⟩
      cases digest
      · rintro e ⟨rfl⟩
        exact hQ.full x hx
      · rintro e ⟨rfl⟩
        exact hQ.metadata (hmsg.2 rfl) x hx
  | syncAck sender target q =>
    exact ⟨carries_pushResp hn q fun x hx => hmsg.1 x hx, passes_nil⟩
  | readRepair sender target e t => exact ⟨hn.applyWrite hQ (hmsg.1 e rfl) t, passes_nil⟩

end passes

/-- A read with nothing to repair with changes no store and sends nothing. -/
lemma advance_of_no_content (H : Hashing I K) (n : LeaderlessNode I K V) (ev : Event I)
    (hstage : c.stage = .repair) (hbest : c.best = some best) (hnone : hasContent best = false) :
    (c.advance n H ev).1.store = n.store ∧ (c.advance n H ev).2.2 = [] := by
  unfold ReadCall.advance
  cases ev with
  | timeout => simp only [hstage, and_self]
  | go =>
    simp only [hstage, hbest, ReadCall.repair, ReadCall.sendRepairs, hnone, Bool.false_eq_true,
      and_false, if_false, ReadCall.finish, and_self]

section cluster

variable {R R' : KVEntry I K V → Prop}

/-- The versions of a call: a write has one to store, a read has been shown some. -/
def Call.Carries (Q Q' : KVEntry I K V → Prop) : Call I K V → Prop
  | .write c => Q c.entry
  | .read c => c.Carries Q'

/-- What nodes store and what is shown, in a cluster. -/
def Cluster.Passes (digests : Prop) (Q Q' : KVEntry I K V → Prop) (s : Cluster I K V) : Prop :=
  s.Parts (LeaderlessNode.Carries Q Q') (Message.Passes digests Q Q') (Call.Carries Q Q')

/-- Empty stores carry nothing. -/
lemma passes_init {nodes : I → LeaderlessNode I K V} (h : ∀ n, (∀ key, (nodes n).store.data key =
    none) ∧ (nodes n).hints = [] ∧ ∀ q, (nodes n).readResps q = none) :
    (Cluster.init nodes).Passes digests Q Q' := by
  refine ⟨fun n => ⟨fun key x hx => ?_, fun x hx => ?_, fun q ch hch => ?_⟩, fun m hm => ?_,
    fun c hc => ?_⟩
  · cases ((h n).1 key).symm.trans hx
  · cases (h n).2.1 ▸ hx
  · cases ((h n).2.2 q).symm.trans hch
  · cases hm
  · cases hc

/-- Weaker properties are passed on too. -/
lemma Cluster.Passes.mono (h : s.Passes digests Q Q') (hQ : ∀ e, Q e → R e)
    (hQ' : ∀ e, Q' e → R' e) : s.Passes digests R R' where
  nodes n := ⟨fun key x hx => hQ _ ((h.nodes n).store key x hx),
    fun x hx => hQ _ ((h.nodes n).hints x hx),
    fun q ch hch r hr e he => hQ' _ ((h.nodes n).resps q ch hch r hr e he)⟩
  network m hm := by
    refine ⟨fun e he => ?_, (h.network m hm).2⟩
    have hold := (h.network m hm).1 e he
    split_ifs at hold ⊢
    · exact hQ' e hold
    · exact hQ e hold
  calls c hc := by
    have hold := h.calls c hc
    cases c with
    | write => exact hQ _ hold
    | read =>
      exact ⟨fun e he => hQ' _ (hold.localEntry e he),
        fun r hr e he => hQ' _ (hold.resps r hr e he), fun e he => hQ' _ (hold.best e he)⟩

/-- The same for a step of the cluster. -/
lemma quiet_of_no_content {i : ℕ} {ev : Event I} {n' : LeaderlessNode I K V}
    (hi : s.calls[i]? = some (.read c)) (hs' : s.step H (.advance i ev) =
      ⟨update s.nodes c.node n', s.calls.set i (.read c'), s.network ++ msgs⟩)
    (hstage : c.stage = .repair) (hbest : c.best = some best) (hnone : hasContent best = false) :
    n'.store = (s.nodes c.node).store ∧ msgs = [] := by
  obtain ⟨hstore, hsent⟩ := advance_of_no_content H (s.nodes c.node) ev hstage hbest hnone
  simp only [Cluster.step, hi, Cluster.mk.injEq] at hs'
  have hnode := congrFun hs'.1 c.node
  rw [update_self, update_self] at hnode
  rw [← hnode, ← append_cancel_left hs'.2.2]
  exact ⟨hstore, hsent⟩

/-- **Every step** passes stored and shown versions on, apart from the entries of new operations. -/
theorem passes_step (hQ : Passes digests Q Q')
    (hmode : ∀ n, (s.nodes n).repairMode = .digest → digests) (h : s.Passes digests Q Q')
    (hnew : ∀ n key value tombstone t, a.IsPut n key value tombstone t →
      (s.step H a).calls =
        s.calls ++ [.write (.start n ((s.nodes n).newEntry key value tombstone t).2)] →
      Q ((s.nodes n).newEntry key value tombstone t).2) : (s.step H a).Passes digests Q Q' := by
  refine parts_move (move_step H s a) h (fun n state hlc => ?_) hnew (fun n key => ?_) ?_ ?_ ?_
    fun n => ?_
  · exact ⟨(h.nodes n).store, (h.nodes n).hints, (h.nodes n).resps⟩
  · refine ⟨fun e he => ?_, nofun, fun e he => ?_⟩
    · cases he
    · cases he
  · intro c c' n' msgs hmem hmove
    have hc : Q c.entry := h.calls _ hmem
    obtain ⟨hn, hmsgs⟩ := hmove.passes hQ (h.nodes c.node) hc
    refine ⟨hn, ?_, hmsgs⟩
    show Q c'.entry
    rw [hmove.same.2]
    exact hc
  · intro i ev c c' n' msgs ha hi hs' hmove
    subst ha
    exact hmove.passes hQ (hmode _) (h.nodes c.node) (h.calls _ (mem_of_getElem? hi))
      fun best => quiet_of_no_content hi hs'
  · intro msg n' replies hmem hmove
    exact hmove.passes hQ (h.nodes msg.target) (h.network msg hmem)
  · have hn := h.nodes n
    refine ⟨⟨hn.store, nofun, hn.resps⟩, fun x hx => ?_⟩
    exact Message.passes_of_entry rfl rfl (hn.hints x hx)

end cluster

/-! ### Every version is the entry of a client operation -/

/-- A property of every version in a cluster, up to the write counter, without digests. -/
def Cluster.All (Q : KVEntry I K V → Prop) (s : Cluster I K V) : Prop :=
  s.Passes False (fun e => Q e.content) fun e => Q e.content

/-- **A step keeps every version that of a client operation.** -/
theorem known_step (hmode : ∀ n, (s.nodes n).repairMode ≠ .digest) (hall : s.All s.Known) :
    (s.step H a).All (s.step H a).Known := by
  have hmono := fun e (he : s.Known (KVEntry.content e)) => he.move (move_step H s a)
  refine passes_step ⟨fun _ _ he => he, fun _ he => he, fun h => h.elim, fun _ he _ => he⟩ hmode
    (Cluster.Passes.mono hall hmono hmono) ?_
  intro n key value tombstone t _ hcalls
  refine ⟨.start n ((s.nodes n).newEntry key value tombstone t).2, ?_, rfl⟩
  rw [hcalls]
  exact mem_append_right _ (mem_singleton.mpr rfl)

end Replication.Leaderless
