import Replication.Leaderless.Levels

/-!
# Leaderless · Honesty: what success means with stand-ins

`coordinate` lets a write succeed when the quorum test is passed. `sloppyRound`, which follows when
it is not, also does so when there is no replica left to stand in for.

* `Collecting` — otherwise the acks of all replicas make a run in which it is not.
-/

set_option linter.unusedSectionVars false

namespace Replication.Leaderless

open Storage Node Clock Library Function List
open HashRing (Hashing)

variable {I K V : Type} [LinearOrder I] [DecidableEq K] [Inhabited V] [DecidableEq V]
  {c : WriteCall I K V} {n : LeaderlessNode I K V} {k : ℕ} {rest : List I} {t : I} {H : Hashing I K}
  {s : Cluster I K V}

/-! ### Every write of a run -/

/-- The acks of a write, and its coordinator if that is a replica, satisfy the quorum test for the
replicas it was sent to. -/
def WriteCall.Met (c : WriteCall I K V) (n : LeaderlessNode I K V) : Prop :=
  n.writeQuorumMet c.acked c.replicas c.selfIsReplica = true

section honest

variable {n' : LeaderlessNode I K V} {c' : WriteCall I K V} {msgs : List (Message I K V)}

/-- A write knows the replicas of its key once it is sent, and has met an attainable level when it
has succeeded. -/
structure HonestCall (H : Hashing I K) (n : LeaderlessNode I K V) (c : WriteCall I K V) : Prop where
  unsent : c.stage = .apply ∨ c.stage = .send → c.result = none
  /-- It goes to the replicas of its key. -/
  placed : ¬ (c.stage = .apply ∨ c.stage = .send) →
    c.replicas = n.replicasFor H c.entry.key ∧ c.selfIsReplica = decide (n.id ∈ c.replicas)
  met : c.result = some .ok → n.attainable H c.entry.key = true → c.Met n

/-- Honesty depends on the settings of the coordinator only. -/
lemma HonestCall.congr (h : HonestCall H n c)
    (hconfig : n'.config = n.config) : HonestCall H n' c := by
  refine ⟨h.unsent, fun hsent => ?_, fun hres hatt => ?_⟩
  · have hid : n'.id = n.id := congrArg Config.id hconfig
    rw [replicasFor_congr hconfig, hid]
    exact h.placed hsent
  · unfold WriteCall.Met
    rw [attainable_congr hconfig] at hatt
    rw [writeQuorumMet_congr hconfig]
    exact h.met hres hatt

/-- All replicas are counted when none is left to acknowledge. -/
lemma replicas_subset_counted (hself : c.selfIsReplica = decide (n.id ∈ c.replicas))
    (hnone : c.unacked n = []) : c.replicas ⊆ n.counted c.acked c.selfIsReplica := by
  intro r hr
  rw [mem_counted]
  by_cases hid : r = n.id
  · subst hid
    exact .inl ⟨hself.trans (decide_eq_true hr), rfl⟩
  right
  by_contra hacked
  have hmem : r ∈ c.unacked n := mem_filter.mpr ⟨hr, decide_eq_true ⟨hid, hacked⟩⟩
  simp [hnone] at hmem

/-- **The next section of a write** keeps it honest. -/
theorem HonestCall.writeStep (h : HonestCall H n c) (hstep : WriteStep H c n n' c' msgs)
    (hnodup : (n.replicasFor H c.entry.key).Nodup) : HonestCall H n c' := by
  cases hstep with
  | idle => exact h
  | apply t hstage => exact ⟨fun _ => h.unsent (.inl hstage), fun hne => absurd (.inr rfl) hne,
      fun hres => absurd ((h.unsent (.inl hstage)).symm.trans hres) (by simp)⟩
  | send hstage =>
    refine ⟨fun hne => absurd hne (by simp), fun _ => ⟨rfl, rfl⟩, fun hres => ?_⟩
    exact absurd ((h.unsent (.inr hstage)).symm.trans hres) (by simp)
  | wait n₁ acked stage result msgs hwaits hnode hwaits' _ hresult =>
    obtain ⟨hreplicas, hself⟩ := h.placed hwaits.sent
    refine ⟨fun hne => absurd hne hwaits'.sent, fun _ => ⟨hreplicas, hself⟩, fun hres hatt => ?_⟩
    dsimp only [WriteCall.Met] at hres ⊢
    rcases hresult with rfl | ⟨-, hresult⟩
    · -- the acks of a write that has succeeded only grow
      have hmet := h.met hres hatt
      rcases hnode with ⟨-, rfl⟩ | ⟨r, -, rfl⟩
      · exact hmet
      · exact writeQuorumMet_insert hmet r
    rcases hresult hres with hmet | ⟨-, hnone⟩
    · exact hmet
    have hall := replicas_subset_counted (c := { c with acked := acked }) hself hnone
    dsimp only at hall
    rw [hreplicas] at hall ⊢
    exact met_of_attainable hatt hnodup hall
  | close hstage | hints hstage =>
    have hsent : ¬ (c.stage = .apply ∨ c.stage = .send) := by
      rw [hstage]
      decide
    exact ⟨fun hne => absurd hne (by simp), fun _ => h.placed hsent, h.met⟩

/-- **Every write of a run is honest**, where replicas of a key are distinct. -/
theorem honestCall_run (hnodup : ∀ n key, ((s.nodes n).replicasFor H key).Nodup)
    (hcalls : s.calls = []) (as : List (Action I K V))
    (hk : (run (Cluster.step H) s as).calls[k]? = some (.write c)) :
    HonestCall H (s.nodes c.node) c := by
  refine run_invariant' (fun s' : Cluster I K V => (∀ n, (s'.nodes n).config = (s.nodes n).config) ∧
    ∀ k c, s'.calls[k]? = some (.write c) → HonestCall H (s.nodes c.node) c) ?_ as
      ⟨fun _ => rfl, fun k c hk => ?_⟩ |>.2 k c hk
  · rintro s' a ⟨hconfig, hinv⟩
    refine ⟨fun n => ((move_step H s' a).nodeStep n).config.trans (hconfig n), fun k c' hk => ?_⟩
    cases (move_step H s' a).origin hk with
    | old _ hold => exact hinv k c' hold
    | write c _ msgs hold hmove =>
      rw [hmove.same.1]
      have hnodup' : ((s'.nodes c.node).replicasFor H c.entry.key).Nodup := by
        rw [replicasFor_congr (hconfig c.node)]
        exact hnodup c.node c.entry.key
      have hhonest := (hinv k c hold).congr (hconfig c.node)
      exact (hhonest.writeStep hmove hnodup').congr (hconfig c.node).symm
    | put => exact ⟨fun _ => rfl, fun hne => absurd (.inl rfl) hne, fun hres => by cases hres⟩
  · simp [hcalls] at hk

end honest

/-! ### A write that all replicas acknowledge -/

section collecting

variable {c : WriteCall I K V}

/-- The messages of a write to some nodes. -/
def WriteCall.requests (c : WriteCall I K V) (rest : List I) : List (Message I K V) :=
  rest.map fun t => .write c.node t c.seqNo c.entry none

/-- A write waits for acks; those of `rest` are missing, and no acks of its targets meet its
level. -/
structure Collecting (s : Cluster I K V) (c : WriteCall I K V) (rest : List I) : Prop where
  calls : s.calls = [.write c]
  network : s.network = c.requests rest
  stage : c.stage = .await
  chan : ∃ ch, (s.nodes c.node).writeAcks c.seqNo = some ch ∧ ch.buf = [] ∧ 0 < ch.cap
  up : ∀ m, (s.nodes m).state.isPaused = false
  id : ∀ m, (s.nodes m).id = m
  sloppy : (s.nodes c.node).sloppy = true
  targets : c.targets = c.replicas.filter fun r => r ≠ c.node
  nodup : c.targets.Nodup
  perm : (c.acked ++ rest).Perm c.targets
  unmet : ∀ acked : List I, acked.Nodup → acked ⊆ c.targets →
    (s.nodes c.node).writeQuorumMet acked c.replicas c.selfIsReplica = false

/-- **Without anyone to stand in for**, a write succeeds. -/
theorem leaveLoop_of_unacked (hmet : n.writeQuorumMet c.acked c.replicas c.selfIsReplica = false)
    (hsloppy : n.sloppy = true) (hnone : c.unacked n = []) :
    c.leaveLoop n H = (n, c.finish n true, []) := by
  dsimp only [WriteCall.leaveLoop]
  rw [hmet, hsloppy, if_neg (by decide), if_pos hnone]

/-- No replica is left when all targets have acknowledged. -/
lemma unacked_eq_nil (hid : n.id = c.node)
    (htargets : c.targets = c.replicas.filter fun r => r ≠ c.node) (hsub : c.targets ⊆ c.acked) :
    c.unacked n = [] := by
  refine filter_eq_nil_iff.mpr fun r hr hun => ?_
  obtain ⟨hne, hacked⟩ := of_decide_eq_true hun
  rw [hid] at hne
  refine hacked (hsub ?_)
  rw [htargets]
  exact mem_filter.mpr ⟨hr, decide_eq_true hne⟩

section

variable (h : Collecting s c (t :: rest))

include h

/-- The next target applies the entry and acknowledges it. -/
lemma Collecting.deliver :
    s.step H (.deliver 0 0) =
      ⟨update s.nodes t ((s.nodes t).applyWrite c.entry 0), s.calls,
        c.requests rest ++ [.writeAck t c.node c.seqNo c.entry]⟩ := by
  have hup := h.up t
  have hid := h.id t
  simp only [Cluster.step, h.network, WriteCall.requests, map_cons, getElem?_cons_zero,
    Message.target, LeaderlessNode.handleMessage, hup, hid, Bool.false_eq_true, if_false,
    eraseIdx_cons_zero]

/-- A target whose ack is missing has not been counted. -/
lemma Collecting.notMem : t ≠ c.node ∧ t ∉ c.acked := by
  have hmem : t ∈ c.targets := h.perm.subset (mem_append_right _ mem_cons_self)
  constructor
  · rw [h.targets] at hmem
    exact of_decide_eq_true (mem_filter.mp hmem).2
  · intro hacked
    exact (disjoint_of_nodup_append (h.perm.nodup_iff.mpr h.nodup)) hacked mem_cons_self

/-- One more ack. -/
lemma Collecting.perm_cons : ((t :: c.acked) ++ rest).Perm c.targets :=
  perm_middle.symm.trans h.perm

/-- The ack can be taken. -/
lemma Collecting.pop :
    ∃ n', ((s.nodes c.node).pushAck c.seqNo t).popAck c.seqNo = some (t, n') ∧
      n'.config = (s.nodes c.node).config ∧ n'.state = (s.nodes c.node).state ∧
      ∃ ch, n'.writeAcks c.seqNo = some ch ∧ ch.buf = [] ∧ 0 < ch.cap := by
  obtain ⟨ch, hch, hbuf, hcap⟩ := h.chan
  exact ⟨_, popAck_pushAck hch hbuf hcap t, rfl, rfl, ⟨ch.cap, []⟩, update_self _ _ _, rfl,
    hcap⟩

/-- The ack arrives at the coordinator. -/
lemma Collecting.deliverAck :
    (s.step H (.deliver 0 0)).step H (.deliver rest.length 0) =
      ⟨update (update s.nodes t ((s.nodes t).applyWrite c.entry 0)) c.node
        ((s.nodes c.node).pushAck c.seqNo t), s.calls,
        c.requests rest⟩ := by
  have hne : c.node ≠ t := h.notMem.1.symm
  have hup := h.up c.node
  have hlen : (c.requests rest).length = rest.length := length_map _
  rw [h.deliver]
  generalize c.requests rest = l at hlen ⊢
  rw [← hlen]
  simp only [Cluster.step, getElem?_concat_length, Message.target, update_of_ne hne,
    LeaderlessNode.handleMessage, hup, Bool.false_eq_true, if_false,
    eraseIdx_append_of_length_le (le_refl l.length), Nat.sub_self, eraseIdx_cons_zero, append_nil]

end

/-- What the first ack loop does with an ack. -/
lemma advance_await {n' : LeaderlessNode I K V} (hstage : c.stage = .await)
    (hmet : n.writeQuorumMet c.acked c.replicas c.selfIsReplica = false)
    (hpop : n.popAck c.seqNo = some (t, n')) (w : ℤ) (ts : List I) :
    c.advance n H (.go w ts) =
      if c.targets.length ≤ (c.acked.insert t).length then
        ({ c with acked := c.acked.insert t } : WriteCall I K V).leaveLoop n' H
      else (n', { c with acked := c.acked.insert t }, []) := by
  unfold WriteCall.advance
  simp only [hstage, hmet, hpop, Bool.false_eq_true, if_false]

section

variable (h : Collecting s c (t :: rest))

include h

/-- One more ack does not meet the level. -/
lemma Collecting.unmet_cons :
    (t :: c.acked).Nodup ∧ (s.nodes c.node).writeQuorumMet c.acked c.replicas c.selfIsReplica =
      false ∧ (s.nodes c.node).writeQuorumMet (t :: c.acked) c.replicas c.selfIsReplica =
        false := by
  have hnodup : (t :: c.acked).Nodup :=
    (h.perm_cons.nodup_iff.mpr h.nodup).of_append_left
  have hsub : (t :: c.acked) ⊆ c.targets := fun x hx =>
    h.perm_cons.subset (mem_append_left _ hx)
  refine ⟨hnodup, h.unmet c.acked (nodup_cons.mp hnodup).2 fun x hx => ?_,
    h.unmet (t :: c.acked) hnodup hsub⟩
  exact hsub (mem_cons_of_mem t hx)

/-- **The coordinator counts an ack**, and leaves its loop after the last one. -/
theorem Collecting.count :
    ∃ n', n'.config = (s.nodes c.node).config ∧ n'.state = (s.nodes c.node).state ∧
      (∃ ch, n'.writeAcks c.seqNo = some ch ∧ ch.buf = [] ∧ 0 < ch.cap) ∧
      let r := if rest = [] then
          ({ c with acked := t :: c.acked } : WriteCall I K V).leaveLoop n' H
        else (n', { c with acked := t :: c.acked }, [])
      run (Cluster.step H) s [.deliver 0 0, .deliver rest.length 0, .advance 0 (.go 0 [])] =
        ⟨update (update s.nodes t ((s.nodes t).applyWrite c.entry 0)) c.node r.1,
          [.write r.2.1], c.requests rest ++ r.2.2⟩ := by
  obtain ⟨n', hpop, hconfig, hstate, hchan⟩ := h.pop
  refine ⟨n', hconfig, hstate, hchan, ?_⟩
  have hinsert : c.acked.insert t = t :: c.acked := insert_of_not_mem h.notMem.2
  have hnotmet : ((s.nodes c.node).pushAck c.seqNo t).writeQuorumMet c.acked c.replicas
      c.selfIsReplica = false := by
    have hpush : NodeStep (fun _ => True) (fun _ => True) (s.nodes c.node)
        ((s.nodes c.node).pushAck c.seqNo t) := nodeStep_pushAck c.seqNo t
    rw [writeQuorumMet_congr hpush.config]
    exact h.unmet_cons.2.1
  have hlen : c.targets.length ≤ (t :: c.acked).length ↔ rest = [] := by
    rw [← h.perm_cons.length_eq, length_append, ← length_eq_zero_iff]
    omega
  have hadvance := advance_await (H := H) h.stage hnotmet hpop 0 []
  simp only [hinsert, hlen] at hadvance
  have hrun : run (Cluster.step H) s [.deliver 0 0, .deliver rest.length 0, .advance 0 (.go 0 [])] =
      ((s.step H (.deliver 0 0)).step H (.deliver rest.length 0)).step H (.advance 0 (.go 0 [])) :=
    rfl
  rw [hrun, h.deliverAck]
  simp only [Cluster.step, h.calls, getElem?_cons_zero, update_self,
    update_idem, hadvance, set_cons_zero]

/-- The write waits for the other acks. -/
lemma Collecting.next (hrest : rest ≠ []) :
    Collecting (run (Cluster.step H) s
        [.deliver 0 0, .deliver rest.length 0, .advance 0 (.go 0 [])])
      { c with acked := t :: c.acked } rest := by
  obtain ⟨n', hconfig, hstate, hchan, hrun⟩ := h.count (H := H)
  rw [hrun, if_neg hrest]
  -- settings and states of nodes are as before
  let same (m : I) (node : LeaderlessNode I K V) : Prop :=
    node.config = (s.nodes m).config ∧ node.state = (s.nodes m).state
  have hsame : ∀ m, same m (update (update s.nodes t ((s.nodes t).applyWrite c.entry 0))
      c.node n' m) := by
    refine (forall_update_iff _ same).mpr ⟨⟨hconfig, hstate⟩, fun m _ => ?_⟩
    refine (forall_update_iff s.nodes same).mpr ⟨⟨config_applyWrite _ c.entry 0, ?_⟩, ?_⟩ m
    · rw [applyWrite_frame]
    · exact fun _ _ => ⟨rfl, rfl⟩
  refine ⟨rfl, append_nil _, h.stage, ?_, fun m => ?_, fun m => ?_, ?_, h.targets, h.nodup,
    h.perm_cons, fun acked hnd hs => ?_⟩
  · dsimp only
    rw [update_self]
    exact hchan
  · rw [(hsame m).2]
    exact h.up m
  · exact (congrArg Config.id (hsame m).1).trans (h.id m)
  · exact (congrArg Config.sloppy (hsame c.node).1).trans h.sloppy
  · rw [writeQuorumMet_congr (hsame c.node).1]
    exact h.unmet acked hnd hs

end

/-- **After the last ack the write succeeds**, although its level is not met. -/
theorem Collecting.last (h : Collecting s c [t]) :
    ∃ c', .write c' ∈ (run (Cluster.step H) s
        [.deliver 0 0, .deliver 0 0, .advance 0 (.go 0 [])]).calls ∧
      c'.result = some .ok ∧ c'.node = c.node ∧ c'.entry = c.entry ∧ ¬ c'.Met (s.nodes c.node) := by
  obtain ⟨n', hconfig, -, -, hrun⟩ := h.count (H := H)
  obtain ⟨-, -, hunmet⟩ := h.unmet_cons
  have hnone : ({ c with acked := t :: c.acked } : WriteCall I K V).unacked n' = [] := by
    refine unacked_eq_nil ((congrArg Config.id hconfig).trans (h.id c.node)) h.targets
      fun r hr => ?_
    rw [← append_nil (t :: c.acked)]
    exact h.perm_cons.mem_iff.mpr hr
  have hleave := leaveLoop_of_unacked (H := H) (c := { c with acked := t :: c.acked }) (n := n')
    (by rw [writeQuorumMet_congr hconfig]; exact hunmet)
    ((congrArg Config.sloppy hconfig).trans h.sloppy) hnone
  rw [if_pos rfl, hleave, length_nil] at hrun
  rw [hrun]
  refine ⟨_, mem_singleton.mpr rfl, rfl, rfl, rfl, ?_⟩
  unfold WriteCall.Met
  exact Bool.not_eq_true _ ▸ hunmet

/-- Without other replicas the timer lets the write succeed. -/
lemma Collecting.timeout (h : Collecting s c []) :
    ∃ c', .write c' ∈ (run (Cluster.step H) s [.advance 0 .timeout]).calls ∧
      c'.result = some .ok ∧ c'.node = c.node ∧ c'.entry = c.entry ∧ ¬ c'.Met (s.nodes c.node) := by
  have hperm : c.acked.Perm c.targets := by
    rw [← append_nil c.acked]
    exact h.perm
  have hunmet := h.unmet c.acked (hperm.nodup_iff.mpr h.nodup) hperm.subset
  have hleave : c.leaveLoop (s.nodes c.node) H = _ := leaveLoop_of_unacked hunmet h.sloppy
    (unacked_eq_nil (h.id c.node) h.targets hperm.symm.subset)
  have hadvance : c.advance (s.nodes c.node) H .timeout = c.leaveLoop (s.nodes c.node) H := by
    unfold WriteCall.advance
    rw [h.stage]
  simp only [run_cons, run_nil, Cluster.step, h.calls, getElem?_cons_zero, hadvance, hleave]
  refine ⟨_, mem_singleton.mpr rfl, rfl, rfl, rfl, ?_⟩
  unfold WriteCall.Met
  exact Bool.not_eq_true _ ▸ hunmet

/-- **Acks of all targets let a write succeed** that has not met its level. -/
theorem Collecting.succeeds (h : Collecting s c rest) :
    ∃ bs c', .write c' ∈ (run (Cluster.step H) s bs).calls ∧ c'.result = some .ok ∧
      c'.node = c.node ∧ c'.entry = c.entry ∧ ¬ c'.Met (s.nodes c.node) := by
  induction rest generalizing s c with
  | nil => exact ⟨_, h.timeout⟩
  | cons t rest ih =>
    by_cases hnil : rest = []
    · subst hnil
      exact ⟨_, h.last⟩
    obtain ⟨bs, c', hmem, hok, hnode, hentry, hmet⟩ := ih (h.next (H := H) hnil)
    refine ⟨_ ++ bs, c', by rw [run_append]; exact hmem, hok, hnode, hentry, ?_⟩
    unfold WriteCall.Met at hmet ⊢
    rwa [writeQuorumMet_congr (config_run H s _ c.node)] at hmet

end collecting

section main

variable {c : WriteCall I K V}

/-- Acks of replicas do not meet a level that is not attainable. -/
lemma writeQuorumMet_of_not_attainable {key : K} (hatt : n.attainable H key = false)
    {acked : List I} (hnodup : acked.Nodup) (hsub : acked ⊆ n.replicasFor H key) :
    n.writeQuorumMet acked (n.replicasFor H key) (decide (n.id ∈ n.replicasFor H key)) = false := by
  rw [← Bool.not_eq_true]
  intro hmet
  have hatt' : n.attainable H key = true := by
    refine attainable_of_met hmet hnodup fun r hr => ?_
    rcases mem_counted.mp hr with ⟨hself, rfl⟩ | hr
    · exact of_decide_eq_true hself
    · exact hsub hr
  simp [hatt] at hatt'

/-- A write is sent, and waits for acks that cannot be enough. -/
lemma collecting_send (hcalls : s.calls = [.write c]) (hnet : s.network = [])
    (hstage : c.stage = .send) (hacked : c.acked = [])
    (hup : ∀ m, (s.nodes m).state.isPaused = false) (hid : ∀ m, (s.nodes m).id = m)
    (hsloppy : (s.nodes c.node).sloppy = true)
    (hnodup : ((s.nodes c.node).replicasFor H c.entry.key).Nodup)
    (hatt : (s.nodes c.node).attainable H c.entry.key = false) :
    ∃ c', c'.node = c.node ∧ c'.entry = c.entry ∧
      Collecting (s.step H (.advance 0 (.go 0 []))) c' c'.targets := by
  have hself := hid c.node
  simp only [Cluster.step, hcalls, getElem?_cons_zero, WriteCall.advance, hstage, hnet,
    nil_append, hself]
  refine ⟨_, ?_, ?_, rfl, rfl, rfl, ?_, ?_, ?_, ?_, rfl, hnodup.filter _, ?_,
    fun acked hnd hsub => ?_⟩
  · rfl
  · rfl
  · dsimp only
    rw [update_self]
    exact ⟨_, update_self _ _ _, rfl, Nat.succ_pos _⟩
  · exact (forall_update_iff s.nodes fun _ node => node.state.isPaused = false).mpr
      ⟨hup c.node, fun m _ => hup m⟩
  · exact (forall_update_iff s.nodes fun m node => node.id = m).mpr ⟨rfl, fun m _ => hid m⟩
  · dsimp only
    rw [update_self]
    exact hsloppy
  · dsimp only
    rw [hacked, nil_append]
  · dsimp only at hsub ⊢
    rw [update_self]
    have hunmet := writeQuorumMet_of_not_attainable hatt hnd fun r hr =>
      mem_of_mem_filter (hsub hr)
    rw [hself] at hunmet
    refine (writeQuorumMet_congr (n := s.nodes c.node) ?_ acked _ _).trans hunmet
    unfold LeaderlessNode.config
    rw [hself]

/-- A client writes, and the coordinator applies the entry. -/
lemma exists_applied (H : Hashing I K) (set : I → Settings I) (sloppy : Bool) (n : I) (key : K) :
    ∃ (as : List (Action I K V)) (c : WriteCall I K V), c.node = n ∧ c.entry.key = key ∧
      c.stage = .send ∧ c.acked = [] ∧
      (run (Cluster.step H) (Cluster.configured H set sloppy) as).calls = [.write c] ∧
      (run (Cluster.step H) (Cluster.configured H set sloppy) as).network = [] ∧
      ∀ m, ((run (Cluster.step H) (Cluster.configured H set sloppy) as).nodes m).state =
        .online := by
  refine ⟨[.write n key default 0, .advance 0 (.go 0 [])], ?_⟩
  have hup : (LeaderlessNode.configured H n (set n) sloppy :
      LeaderlessNode I K V).state.isPaused = false := rfl
  simp only [run_cons, run_nil, Cluster.step, Cluster.invoke, Cluster.configured, Cluster.init, hup,
    Bool.false_eq_true, if_false, Cluster.setNode, nil_append, getElem?_cons_zero, WriteCall.start,
    WriteCall.advance, update_self, update_idem, set_cons_zero]
  refine ⟨_, rfl, rfl, rfl, rfl, rfl, trivial, ?_⟩
  refine (forall_update_iff _ fun _ node => LeaderlessNode.state node = .online).mpr
    ⟨?_, fun _ _ => rfl⟩
  rw [applyWrite_frame]
  rfl

/-- The acks of a write, and its coordinator if that is a replica of the key, satisfy the quorum
test. -/
def Cluster.Acknowledged (H : Hashing I K) (s : Cluster I K V) (c : WriteCall I K V) : Prop :=
  (s.nodes c.node).writeQuorumMet c.acked ((s.nodes c.node).replicasFor H c.entry.key)
    (decide (c.node ∈ (s.nodes c.node).replicasFor H c.entry.key)) = true

instance (s : Cluster I K V) (c : WriteCall I K V) : Decidable (s.Acknowledged H c) :=
  inferInstanceAs (Decidable (_ = true))

/-- The replicas of a write are those of its key. -/
lemma HonestCall.met_iff (h : HonestCall H (s.nodes c.node) c) (hid : ∀ m, (s.nodes m).id = m)
    (hok : c.result = some .ok) : c.Met (s.nodes c.node) ↔ s.Acknowledged H c := by
  have hsent : ¬ (c.stage = .apply ∨ c.stage = .send) := fun hne =>
    absurd ((h.unsent hne).symm.trans hok) (by simp)
  obtain ⟨hreplicas, hself⟩ := h.placed hsent
  unfold WriteCall.Met Cluster.Acknowledged
  rw [hself, hreplicas, hid c.node]

/-- **Writes with stand-ins are honest iff the level is attainable**: the writes of a key through a
node succeed only with acks that satisfy the quorum test, in every run, exactly if the acks of all
replicas of the key satisfy it. -/
theorem write_honest_iff (H : Hashing I K) (set : I → Settings I)
    (hN : ∀ n, 1 ≤ (set n).qConfig.N) (n : I) (key : K) :
    (∀ (as : List (Action I K V)) (c : WriteCall I K V),
      let s := run (Cluster.step H) (Cluster.configured H set true) as
      .write c ∈ s.calls → c.node = n → c.entry.key = key → c.result = some .ok →
        s.Acknowledged H c) ↔
      (LeaderlessNode.configured H n (set n) true : LeaderlessNode I K V).attainable H key =
        true := by
  have hnodup : ∀ m k, (((Cluster.configured H set true : Cluster I K V).nodes m).replicasFor
      H k).Nodup := fun m k => (replicasFor_spec rfl (hN m) k).1
  have hid : ∀ (as : List (Action I K V)) m,
      ((run (Cluster.step H) (Cluster.configured H set true) as).nodes m).id = m := fun as m =>
    congrArg Config.id (config_run H _ as m)
  have hhonest : ∀ (as : List (Action I K V)) (c : WriteCall I K V),
      .write c ∈ (run (Cluster.step H) (Cluster.configured H set true) as).calls →
      HonestCall H ((run (Cluster.step H) (Cluster.configured H set true) as).nodes c.node) c := by
    intro as c hc
    obtain ⟨k, hk⟩ := mem_iff_getElem?.mp hc
    exact (honestCall_run hnodup rfl as hk).congr (config_run H _ as c.node)
  constructor
  · intro h
    by_contra hatt
    rw [Bool.not_eq_true] at hatt
    -- the write that all other replicas acknowledge
    obtain ⟨as, c, rfl, rfl, hstage, hacked, hcalls, hnet, hup⟩ :=
      exists_applied (V := V) H set true n key
    have hconfig := config_run H (Cluster.configured H set true : Cluster I K V) as
    have hsend := collecting_send (H := H) hcalls hnet hstage hacked
      (fun m => by rw [hup m]; rfl) (hid as) (congrArg Config.sloppy (hconfig c.node))
      (by rw [replicasFor_congr (hconfig c.node)]; exact hnodup c.node c.entry.key)
      (by rw [attainable_congr (hconfig c.node)]; exact hatt)
    obtain ⟨c₁, hnode₁, hentry₁, hcollect⟩ := hsend
    obtain ⟨bs, c', hmem, hok, hnode, hentry, hmet⟩ := hcollect.succeeds (H := H)
    have hrun : run (Cluster.step H) (Cluster.configured H set true)
        (as ++ .advance 0 (.go 0 []) :: bs) = run (Cluster.step H)
          ((run (Cluster.step H) (Cluster.configured H set true) as).step H
            (.advance 0 (.go 0 []))) bs := by
      rw [run_append, run_cons]
    rw [← hrun] at hmem
    have hack := h _ c' hmem (hnode.trans hnode₁) (by rw [hentry, hentry₁]) hok
    have hmet' := ((hhonest _ c' hmem).met_iff (hid _) hok).mpr hack
    rw [hrun, hnode] at hmet'
    unfold WriteCall.Met at hmet hmet'
    rw [writeQuorumMet_congr (config_run H _ bs c₁.node)] at hmet'
    exact hmet hmet'
  · intro hatt as c s hc hnode hkey hok
    subst hnode hkey
    have hc' := hhonest as c hc
    refine (hc'.met_iff (hid as) hok).mp (hc'.met hok ?_)
    rw [attainable_congr (config_run H _ as c.node)]
    exact hatt

/-- The other replica applies the write and acknowledges it. -/
private def allAck : List (Action Bool Unit ℕ) :=
  [.write false () 7 1000000, .advance 0 (.go 1000000 []), .advance 0 (.go 1000000 []),
    .deliver 0 1000000, .deliver 0 1000000, .advance 0 (.go 2000000 [])]

/-- Two acks are attainable with two replicas. -/
theorem write_honest_both :
    let s := run (Cluster.step alternatingTokens)
      (Cluster.configured alternatingTokens (fun _ => twoReplicas 2) true) allAck
    ∃ c, .write c ∈ s.calls ∧ c.result = some .ok ∧ s.Acknowledged alternatingTokens c := by
  have hrun : ∃ c ∈ (run (Cluster.step alternatingTokens)
        (Cluster.configured alternatingTokens (fun _ => twoReplicas 2) true) allAck).writeOf 0,
      c.node = false ∧ c.result = some .ok := by
    decide +kernel
  obtain ⟨c, hc, hnode, hok⟩ := hrun
  have hmem := mem_calls_of_writeOf hc
  have hhonest := (write_honest_iff (V := ℕ) alternatingTokens (fun _ => twoReplicas 2)
    (fun _ => by decide) false ()).mpr (by decide +kernel)
  exact ⟨c, hmem, hok, hhonest allAck c hmem hnode rfl hok⟩

/-- Three acks are asked for and there are two replicas: the write succeeds when both have it. -/
theorem write_dishonest :
    let s := run (Cluster.step alternatingTokens)
      (Cluster.configured alternatingTokens (fun _ => twoReplicas 3) true) allAck
    ∃ c, .write c ∈ s.calls ∧ c.result = some .ok ∧ c.acked = [true] ∧
      ¬ s.Acknowledged alternatingTokens c := by
  have hrun : ∃ c ∈ (run (Cluster.step alternatingTokens)
        (Cluster.configured alternatingTokens (fun _ => twoReplicas 3) true) allAck).writeOf 0,
      c.result = some .ok ∧ c.acked = [true] ∧
        ¬ (run (Cluster.step alternatingTokens)
          (Cluster.configured alternatingTokens (fun _ => twoReplicas 3) true)
          allAck).Acknowledged alternatingTokens c := by
    decide +kernel
  obtain ⟨c, hc, hrest⟩ := hrun
  exact ⟨c, mem_calls_of_writeOf hc, hrest⟩

end main

end Replication.Leaderless
