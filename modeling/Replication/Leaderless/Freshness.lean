import Replication.Leaderless.Carries
import Replication.Leaderless.Reads
import Replication.Library.Quorum

/-!
# Leaderless · Freshness: reads after writes

A write that succeeds leaves its entry, or a version that beats it, at `W` replicas of its key. A
read that starts afterwards and counts one of them answers with nothing older.
-/

set_option linter.unusedSectionVars false

namespace Replication.Leaderless

open Storage Node Clock Library List
open HashRing (Hashing)

variable {I K V : Type} [LinearOrder I] [DecidableEq K] [Inhabited V] [DecidableEq V]
  {c : ReadCall I K V} {H : Hashing I K} {s s' : Cluster I K V} {a : Action I K V}

/-! ### Runs of a cluster -/

/-- A cluster with fixed membership and quorum sizes, at the plain quorum level and without
stand-ins. -/
def Cluster.create (H : Hashing I K) (members : List I) (q : QuorumConfig)
    (mode : I → ReadRepairMode) : Cluster I K V :=
  .init fun n =>
    { (LeaderlessNode.new H n q).setAllNodes H members with repairMode := mode n, sloppy := false }

/-- The steps of a run in which reads rely on enough replicas and clocks are in range. -/
def Cluster.safe (H : Hashing I K) (s : Cluster I K V) (a : Action I K V) : Bool :=
  s.overlaps H a && s.stampsInRange a

/-- The invariants of safe runs. -/
structure RunInv (H : Hashing I K) (members : List I) (q : QuorumConfig)
    (mode : I → ReadRepairMode) (s : Cluster I K V) : Prop where
  config : ∀ n, (s.nodes n).config =
    ((Cluster.create H members q mode : Cluster I K V).nodes n).config
  known : s.All s.Known
  stamps : StampInv s
  acks : AckInv H s
  reads : ReadInv H s

section runInv

variable {members : List I} {q : QuorumConfig} {mode : I → ReadRepairMode}

section

variable (h : RunInv H members q mode s)

include h

/-- There are no stand-ins. -/
lemma RunInv.strict : Strict s :=
  ⟨fun n => congrArg Config.id (h.config n), fun n => congrArg Config.sloppy (h.config n)⟩

lemma RunInv.qConfig (n : I) : (s.nodes n).qConfig = q :=
  congrArg Config.qConfig (h.config n)

/-- All nodes agree on the replicas of a key, in all states. -/
lemma RunInv.replicasFor_eq (h' : RunInv H members q mode s') (n m : I) (key : K) :
    (s.nodes n).replicasFor H key = (s'.nodes m).replicasFor H key := by
  rw [replicasFor_congr (h.config n), replicasFor_congr (h'.config m)]
  rfl

/-- A key has at most `N` replicas. -/
lemma RunInv.replicasFor (hN : 1 ≤ q.N) (n : I) (key : K) :
    ((s.nodes n).replicasFor H key).Nodup ∧
      (((s.nodes n).replicasFor H key).length : ℤ) ≤ q.N := by
  rw [replicasFor_congr (h.config n)]
  exact replicasFor_spec rfl hN key

end

/-- The invariants hold at first. -/
lemma runInv_create (H : Hashing I K) (members : List I) (q : QuorumConfig)
    (mode : I → ReadRepairMode) :
    RunInv H members q mode (Cluster.create H members q mode : Cluster I K V) := by
  refine ⟨fun _ => rfl, passes_init fun _ => ?_,
    stampInv_init (fun _ => HLC.valid_new) rfl, ackInv_init fun _ _ => rfl,
    readInv_init fun _ _ => rfl⟩
  exact ⟨fun _ => rfl, rfl, fun _ => rfl⟩

/-- **The invariants hold along safe runs.** -/
theorem runInv_step (hN : 1 ≤ q.N) (hmode : ∀ n, mode n ≠ .digest)
    (hsafe : s.safe H a = true) (h : RunInv H members q mode s) :
    RunInv H members q mode (s.step H a) := by
  obtain ⟨hoverlap, hrange⟩ := Bool.and_eq_true_iff.mp hsafe
  have hmove := move_step H s a
  have hmode' : ∀ n, (s.nodes n).repairMode ≠ .digest := by
    intro n hdigest
    exact hmode n ((congrArg Config.repairMode (h.config n)).symm.trans hdigest)
  refine ⟨fun n => (hmove.nodeStep n).config.trans (h.config n), known_step hmode' h.known,
    stampInv_move hmove h.strict.id hrange h.stamps, ackInv_move hmove h.strict h.acks, ?_⟩
  exact readInv_move hmove h.strict hmode' (fun n key => (h.replicasFor hN n key).1) hoverlap
    h.reads

end runInv

/-! ### What reads see of a write -/

/-- There is a version that an entry does not beat. -/
def Newer (e : KVEntry I K V) (o : Option (KVEntry I K V)) : Prop :=
  ∃ x, o = some x ∧ e.stamp ≤ x.stamp

/-- The nodes of `Q` show a read nothing older than an entry. -/
structure FreshRead (e : KVEntry I K V) (Q : List I) (s : Cluster I K V) (c : ReadCall I K V) :
    Prop where
  localEntry : c.stage ≠ .readLocal → c.node ∈ Q → Newer e c.localEntry
  resps : ∀ r ∈ c.remoteResps, r.senderID ∈ Q → Newer e r.entry
  chan : c.seqNo ≠ 0 → ∀ ch, (s.nodes c.node).readResps c.seqNo = some ch →
    ∀ r ∈ ch.buf, r.senderID ∈ Q → Newer e r.entry
  answers : c.seqNo ≠ 0 → ∀ r key x hash, .syncAck r c.node c.seqNo key x hash ∈ s.network →
    r ∈ Q → Newer e x
  /-- Requests are for the key of the read. -/
  requests : c.seqNo ≠ 0 → ∀ t key d, .clientRead c.node t c.seqNo key d ∈ s.network →
    key = c.key

/-- The nodes of `Q` cover an entry, and reads from the `k`-th call on see that. -/
structure FreshInv (e : KVEntry I K V) (Q : List I) (k : ℕ) (s : Cluster I K V) : Prop where
  covers : ∀ r ∈ Q, Covers (s.nodes r).store e
  reads : ∀ i c, k ≤ i → s.calls[i]? = some (.read c) → c.key = e.key → FreshRead e Q s c

section fresh

variable {e : KVEntry I K V} {Q : List I} {k : ℕ} {c c' : ReadCall I K V}

/-- A node of `Q` shows nothing older than the entry. -/
lemma FreshInv.newer (h : FreshInv e Q k s) {r : I} (hr : r ∈ Q) :
    Newer e ((s.nodes r).store.getRaw e.key) :=
  (h.covers r hr).getRaw

section

variable (hfresh : FreshRead e Q s c)

include hfresh

/-- What a read has seen stays fresh while others move. -/
lemma FreshRead.move (hinv : FreshInv e Q k s) (h : Move H s a s') (hs : Strict s)
    (hall : s.All s.Known) (hkey : c.key = e.key) (hbound : c.seqNo ≤ (s.nodes c.node).seqNo) :
    FreshRead e Q s' c := by
  refine ⟨hfresh.localEntry, hfresh.resps, fun hsent ch hch r hr hQ => ?_,
    fun hsent r key x hash hm hQ => ?_, fun hsent t key d hm => ?_⟩
  · rcases (h.chanStep c.node).2 c.seqNo ch hch with ⟨hk, -⟩ | ⟨ch₀, hch₀, hbuf⟩
    · omega
    · rcases hbuf r hr with hr | ⟨key, hm⟩
      · exact hfresh.chan hsent ch₀ hch₀ r hr hQ
      · exact hfresh.answers hsent r.senderID key r.entry r.hash hm hQ
  · rcases h.sent hs hm with hm | hnew
    · exact hfresh.answers hsent r key x hash hm hQ
    · generalize hn : c.node = n at hnew
      generalize hq : c.seqNo = q at hnew
      cases hnew with
      | syncAck r n q key x hash d hrequest he =>
        subst hn hq
        -- the answer is what the node has under the key of the read
        have hfull : d = false := Bool.eq_false_iff.mpr (hall.network _ hrequest).2
        rw [he hfull, hfresh.requests hsent r key d hrequest, hkey]
        exact hinv.newer hQ
  · rcases h.sent hs hm with hm | hnew
    · exact hfresh.requests hsent t key d hm
    · generalize hn : c.node = n at hnew
      generalize hq : c.seqNo = q at hnew
      cases hnew with
      | clientRead =>
        rw [hn] at hbound
        omega

/-- The same for a read that has only changed its stage or its answer. -/
lemma FreshRead.congr (hnode : c'.node = c.node) (hkey : c'.key = c.key) (hseq : c'.seqNo = c.seqNo)
    (hlocal : c'.localEntry = c.localEntry) (hresps : c'.remoteResps = c.remoteResps)
    (hstage : c.stage ≠ .readLocal) : FreshRead e Q s c' := by
  refine ⟨fun _ => ?_, ?_, ?_, ?_, ?_⟩
  · rw [hnode, hlocal]
    exact hfresh.localEntry hstage
  · rw [hresps]
    exact hfresh.resps
  · rw [hnode, hseq]
    exact hfresh.chan
  · rw [hnode, hseq]
    exact hfresh.answers
  · rw [hnode, hseq, hkey]
    exact hfresh.requests

/-- Nothing waits for a read that sends its requests. -/
lemma FreshRead.send (hreads : ReadInv H s) (hstage : c.stage = .send) {targets : List I}
    {needed : ℤ} {d : Bool} {ch : Chan (ReadResp I K V)} (hch : ch.buf = [])
    (hchan : (s'.nodes c.node).readResps ((s.nodes c.node).seqNo + 1) = some ch)
    (hnetwork : s'.network = s.network ++ targets.map fun t =>
      .clientRead (s.nodes c.node).id t ((s.nodes c.node).seqNo + 1) c.key d) :
    FreshRead e Q s' { c with
      remoteNeeded := needed, targets := targets, seqNo := (s.nodes c.node).seqNo + 1
      stage := .await } := by
  have hstage' : c.stage ≠ .readLocal := by
    rw [hstage]
    decide
  refine ⟨fun _ => hfresh.localEntry hstage', hfresh.resps, fun _ ch' hch' r hr => ?_,
    fun _ r key x hash hm => ?_, fun _ t key d' hm => ?_⟩
  · rw [hchan] at hch'
    cases hch'
    simp [hch] at hr
  · rw [hnetwork] at hm
    rcases mem_append.mp hm with hm | hm
    · exact absurd (hreads.answers r c.node _ key x hash hm) (Nat.not_succ_le_self _)
    · obtain ⟨t, -, heq⟩ := mem_map.mp hm
      cases heq
  · rw [hnetwork] at hm
    rcases mem_append.mp hm with hm | hm
    · exact absurd (hreads.requests c.node t _ key d' hm) (Nat.not_succ_le_self _)
    · obtain ⟨t, -, heq⟩ := mem_map.mp hm
      exact (Message.clientRead.inj heq).2.2.2.1.symm

/-- What a read sees when it goes on. -/
lemma FreshRead.readStep (hfresh' : FreshRead e Q s' c) (hinv : FreshInv e Q k s)
    (hreads : ReadInv H s) (hok : ReadOK H s c) (hkey : c.key = e.key) {ev : Event I}
    {msgs : List (Message I K V)}
    (hmove : ReadStep H c (s.nodes c.node) ev (s'.nodes c.node) c' msgs)
    (hnetwork : s'.network = s.network ++ msgs) : FreshRead e Q s' c' := by
  have hlate : ∀ {st : ReadStage}, c.stage = st → st ≠ .readLocal → c.stage ≠ .readLocal :=
    fun h hne heq => hne (h.symm.trans heq)
  generalize hn' : s'.nodes c.node = n' at hmove
  cases hmove with
  | idle => exact hfresh'
  | readLocal =>
    refine ⟨fun _ hQ => ?_, hfresh'.resps, hfresh'.chan, hfresh'.answers, hfresh'.requests⟩
    dsimp only
    rw [hkey]
    exact hinv.newer hQ
  | send t targets _ hstage =>
    have hopened : (s'.nodes c.node).readResps ((s.nodes c.node).seqNo + 1) =
        some ⟨targets.length + 1, []⟩ := by
      rw [hn']
      exact Function.update_self _ _ _
    exact hfresh.send hreads hstage rfl hopened hnetwork
  | resp n₁ r hstage hpop =>
    obtain ⟨ch, buf, hch, hbuf, -⟩ := popResp_eq_some hpop
    have hsent : c.seqNo ≠ 0 := hok.sent (by rw [hstage]; decide)
    refine ⟨fun _ => hfresh'.localEntry (hlate hstage (by decide)), fun x hx hQ => ?_,
      hfresh'.chan, hfresh'.answers, hfresh'.requests⟩
    rcases mem_append.mp hx with hx | hx
    · exact hfresh'.resps x hx hQ
    rw [mem_singleton.mp hx] at hQ ⊢
    refine hfresh.chan hsent ch hch r ?_ hQ
    rw [hbuf]
    exact mem_cons_self
  | pick _ _ hstage | fail _ hstage | fetch _ hstage | repair _ _ _ hstage
  | repairSync _ _ _ hstage | ack _ _ hstage | leave _ hstage =>
    exact hfresh'.congr rfl rfl rfl rfl rfl (hlate hstage (by decide))

end

/-- A new read has seen nothing. -/
lemma freshRead_start (e : KVEntry I K V) (Q : List I) (n : I) (key : K) :
    FreshRead e Q s (.start n key) :=
  ⟨fun h => absurd rfl h, nofun, fun h => absurd rfl h,
    fun h => absurd rfl h, fun h => absurd rfl h⟩

/-- A read keeps its coordinator and its key. -/
lemma ReadStep.same {ev : Event I} {n n' : LeaderlessNode I K V} {msgs : List (Message I K V)}
    (h : ReadStep H c n ev n' c' msgs) : c'.node = c.node ∧ c'.key = c.key := by
  cases h <;> exact ⟨rfl, rfl⟩

/-- **What reads see of a write**, in one step. -/
theorem freshInv_move (h : Move H s a s') (hs : Strict s) (hall : s.All s.Known)
    (hreads : ReadInv H s) (hinv : FreshInv e Q k s) : FreshInv e Q k s' := by
  refine ⟨fun r hr => covers_move h (hinv.covers r hr), fun i c' hi hc' hkey => ?_⟩
  cases h.origin hc' with
  | old _ hc =>
    have hok := hreads.calls c' (mem_of_getElem? hc)
    exact (hinv.reads i c' hi hc hkey).move hinv h hs hall hkey hok.bound
  | read ev c _ msgs _ hc hmove hnetwork =>
    have hok := hreads.calls c (mem_of_getElem? hc)
    rw [hmove.same.2] at hkey
    have hfresh := hinv.reads i c hi hc hkey
    exact hfresh.readStep (hfresh.move hinv h hs hall hkey hok.bound) hinv hreads hok
      hkey hmove hnetwork
  | get n key => exact freshRead_start e Q n key

end fresh

/-! ### Counting -/

/-- The nodes that a read counts: its own and those that answered. -/
def ReadCall.counted (c : ReadCall I K V) : List I := c.node :: c.remoteResps.map ReadResp.senderID

/-- The responders of a read are different targets. -/
lemma ReadOK.senders (hok : ReadOK H s c) :
    (c.remoteResps.map ReadResp.senderID).Nodup ∧
      c.remoteResps.map ReadResp.senderID ⊆ c.targets := by
  by_cases hsent : c.seqNo = 0
  · rw [hok.silent hsent]
    exact ⟨nodup_nil, nil_subset _⟩
  have hcount : ∀ r, (c.remoteResps.map ReadResp.senderID).count r ≤
      if r ∈ c.targets then 1 else 0 := by
    intro r
    have heard : (c.remoteResps.map ReadResp.senderID).count r = c.heard r := by
      rw [List.count, countP_map, ReadCall.heard]
      exact countP_congr fun x _ => by simp
    have := hok.counted hsent r
    omega
  refine ⟨nodup_iff_count_le_one.mpr fun r => (hcount r).trans ?_, fun r hr => ?_⟩
  · split_ifs <;> omega
  · by_contra hout
    have hle := hcount r
    rw [if_neg hout] at hle
    exact absurd (count_pos_iff.mpr hr) (by omega)

/-- A read that does not fail has met its quorum. -/
lemma ReadOK.quorum (hok : ReadOK H s c) {res : ReadResult I K V} (hres : c.result = some res)
    (hquorum : ∀ k r, res ≠ .quorumNotMet k r) :
    (s.nodes c.node).qConfig.R ≤ 1 + c.remoteResps.length := by
  rcases hok.answer res hres with ⟨k, r, heq⟩ | ⟨hR, -⟩
  · exact absurd heq (hquorum k r)
  · exact hR

/-- **A read counts a node of every write quorum.** -/
theorem exists_counted (hok : ReadOK H s c) (hsent : c.seqNo ≠ 0) {Q : List I} (hnodup : Q.Nodup)
    (hsub : Q ⊆ (s.nodes c.node).replicasFor H c.key) (hid : (s.nodes c.node).id = c.node)
    (hW : (s.nodes c.node).qConfig.W ≤ Q.length)
    (hR : (s.nodes c.node).qConfig.R ≤ 1 + c.remoteResps.length)
    (hN : (((s.nodes c.node).replicasFor H c.key).length : ℤ) ≤ (s.nodes c.node).qConfig.N) :
    ∃ r ∈ Q, r ∈ c.counted := by
  obtain ⟨hsenders, htargets⟩ := hok.senders
  have hcounted : c.counted.Nodup :=
    nodup_cons.mpr ⟨fun hmem => hok.others (htargets hmem), hsenders⟩
  -- the replicas among them
  have hreplicas := length_le_filter_add hsenders htargets
    fun t => t ∈ (s.nodes c.node).replicasFor H c.key
  have hoverlap := hok.overlap hsent
  rw [Overlap, hid] at hoverlap
  rw [length_map] at hreplicas
  have hlen : ((s.nodes c.node).replicasFor H c.key).length < Q.length +
      (c.counted.filter fun t => t ∈ (s.nodes c.node).replicasFor H c.key).length := by
    rw [ReadCall.counted, filter_cons]
    split_ifs with hself
    · rw [if_pos (of_decide_eq_true hself)] at hoverlap
      rw [length_cons]
      omega
    · rw [if_neg fun h => hself (decide_eq_true h)] at hoverlap
      omega
  obtain ⟨r, hr, hr'⟩ := exists_mem_of_length_lt hnodup (hcounted.filter _) hsub
    (fun t ht => of_decide_eq_true (mem_filter.mp ht).2) hlen
  exact ⟨r, hr, (mem_filter.mp hr').1⟩

/-- **A write that succeeds is at `W` replicas.** -/
theorem WriteOK.exists_holders {c : WriteCall I K V} (hok : WriteOK H s c)
    (hresult : c.result = some .ok) (hid : ∀ n, (s.nodes n).id = n)
    (hlevel : (s.nodes c.node).consistencyLevel = .quorum) :
    ∃ Q : List I, Q.Nodup ∧ Q ⊆ (s.nodes c.node).replicasFor H c.entry.key ∧
      (s.nodes c.node).qConfig.W ≤ Q.length ∧ ∀ r ∈ Q, Covers (s.nodes r).store c.entry := by
  have hmet := hok.quorum hresult
  rw [writeQuorumMet_eq, hlevel] at hmet
  exact ⟨_, nodup_counted _ hok.acked.1 _, fun r hr => (hok.covers_counted hid hresult hr).1,
    of_decide_eq_true hmet, fun r hr => (hok.covers_counted hid hresult hr).2⟩

/-! ### The theorem -/

/-- A read that counts a fresh node answers with nothing older. -/
lemma FreshRead.answer {e : KVEntry I K V} {Q : List I} (hfresh : FreshRead e Q s c)
    (hok : ReadOK H s c) (hcounted : ∃ r ∈ Q, r ∈ c.counted) {res : ReadResult I K V}
    (hres : c.result = some res) (hquorum : ∀ k r, res ≠ .quorumNotMet k r) :
    ∃ best ∈ c.responses, (res = .found best ∨ res = .deleted best) ∧ e.stamp ≤ best.stamp := by
  have hstage : c.stage ≠ .readLocal := by
    intro h
    simp [(hok.early (.inl h)).2] at hres
  have hnewer : ∃ x ∈ c.responses, e.stamp ≤ x.stamp := by
    obtain ⟨r, hr, hmem⟩ := hcounted
    rcases mem_cons.mp hmem with rfl | hmem
    · obtain ⟨x, hx, hle⟩ := hfresh.localEntry hstage hr
      exact ⟨x, mem_responses.mpr (.inl hx), hle⟩
    · obtain ⟨resp, hresp, rfl⟩ := mem_map.mp hmem
      obtain ⟨x, hx, hle⟩ := hfresh.resps resp hresp hr
      exact ⟨x, mem_responses.mpr (.inr ⟨resp, hresp, hx⟩), hle⟩
  obtain ⟨x, hx, hle⟩ := hnewer
  rcases hok.answer res hres with ⟨k, r, heq⟩ | ⟨-, ⟨-, hnone⟩ | ⟨best, hbest, heq⟩⟩
  · exact absurd heq (hquorum k r)
  · rw [newest_eq_argmax, argmax_eq_none] at hnone
    simp [hnone] at hx
  · rw [newest_eq_argmax] at hbest
    exact ⟨best, argmax_mem hbest, heq, hle.trans (le_of_mem_argmax hx hbest)⟩

/-- **Quorum freshness**: in a run in which reads rely on enough replicas, a read that starts after
a write or delete of its key succeeded, and that meets its quorum, answers from the entry of that
write or from one that beats it. -/
theorem quorum_read_fresh (H : Hashing I K) (members : List I) (q : QuorumConfig)
    (mode : I → ReadRepairMode) (hN : 1 ≤ q.N) (hmode : ∀ n, mode n ≠ .digest)
    (as bs : List (Action I K V))
    (hsafe : Along (Cluster.step H) (fun s a => s.safe H a = true)
      (Cluster.create H members q mode) (as ++ bs))
    {i j : ℕ} {w : WriteCall I K V} {r : ReadCall I K V} {res : ReadResult I K V}
    (hw : (run (Cluster.step H) (Cluster.create H members q mode) as).calls[i]? = some (.write w))
    (hok : w.result = some .ok)
    (hj : (run (Cluster.step H) (Cluster.create H members q mode) as).calls.length ≤ j)
    (hr : (run (Cluster.step H) (Cluster.create H members q mode) (as ++ bs)).calls[j]? =
      some (.read r))
    (hkey : r.key = w.entry.key) (hres : r.result = some res)
    (hquorum : ∀ k n, res ≠ .quorumNotMet k n) :
    ∃ best, (res = .found best ∨ res = .deleted best) ∧
      (best.content = w.entry.content ∨ w.entry.stamp < best.stamp) := by
  rw [along_append] at hsafe
  rw [run_append] at hr
  have hinv := run_invariant (RunInv H members q mode) (fun s a ha hs => runInv_step hN hmode ha hs)
    hsafe.1 (runInv_create H members q mode)
  generalize hs : run (Cluster.step H) (Cluster.create H members q mode) as = s at *
  obtain ⟨Q, hnodup, hsub, hW, hcovers⟩ := (hinv.acks.calls w (mem_of_getElem? hw)).exists_holders
    hok hinv.strict.id (congrArg Config.consistencyLevel (hinv.config w.node))
  -- from here on the write is known, and later reads see it
  obtain ⟨hinv', hfresh, hknown⟩ : RunInv H members q mode (run (Cluster.step H) s bs) ∧
      FreshInv w.entry Q j (run (Cluster.step H) s bs) ∧
      (run (Cluster.step H) s bs).Known w.entry.content := by
    refine run_invariant (fun s => RunInv H members q mode s ∧ FreshInv w.entry Q j s ∧
      s.Known w.entry.content) (fun s a ha hs => ?_) hsafe.2
      ⟨hinv, ⟨hcovers, fun k c hk hc => ?_⟩, w, mem_of_getElem? hw, rfl⟩
    · obtain ⟨hinv, hfresh, hknown⟩ := hs
      have hmove := move_step H s a
      exact ⟨runInv_step hN hmode ha hinv,
        freshInv_move hmove hinv.strict hinv.known hinv.reads hfresh, hknown.move hmove⟩
    · have := (List.getElem?_eq_some_iff.mp hc).1
      omega
  generalize run (Cluster.step H) s bs = s' at *
  have hread := hinv'.reads.calls r (mem_of_getElem? hr)
  have hsent : r.seqNo ≠ 0 := by
    refine hread.sent fun hstage => ?_
    simp [(hread.early (hstage.imp_right .inl)).2] at hres
  have hcounted : ∃ n ∈ Q, n ∈ r.counted := by
    refine exists_counted hread hsent hnodup ?_ (hinv'.strict.id r.node) ?_
      (hread.quorum hres hquorum) ?_
    · rw [hkey, hinv'.replicasFor_eq hinv r.node w.node]
      exact hsub
    · rw [hinv'.qConfig, ← hinv.qConfig w.node]
      exact hW
    · rw [hinv'.qConfig]
      exact (hinv'.replicasFor hN r.node r.key).2
  obtain ⟨best, hmem, heq, hle⟩ :=
      (hfresh.reads j r le_rfl hr hkey).answer hread hcounted hres hquorum
  refine ⟨best, heq, hle.lt_or_eq.symm.imp_left fun hstamp => ?_⟩
  have hshown : ReadCall.Carries _ r := hinv'.known.calls _ (mem_of_getElem? hr)
  exact hinv'.stamps.content_eq (hshown.response hmem) hknown
    (by rw [stamp_content, stamp_content, hstamp])

/-- The `i`-th call, if it is a read that found a version. -/
private def foundBy (s : Cluster I K V) (i : ℕ) : Option (ReadCall I K V × KVEntry I K V) :=
  match s.calls[i]? with
  | some (.read r) =>
    match r.result with
    | some (.found x) => some (r, x)
    | _ => none
  | _ => none

/-- The read that is looked up is there. -/
private lemma mem_foundBy {i : ℕ} {p : ReadCall I K V × KVEntry I K V} (h : p ∈ foundBy s i) :
    s.calls[i]? = some (.read p.1) ∧ p.1.result = some (.found p.2) := by
  unfold foundBy at h
  split at h
  case h_1 hcall =>
    split at h
    case h_1 hres =>
      cases h
      exact ⟨hcall, hres⟩
    case h_2 => cases h
  case h_2 => cases h

/-- A ring on which the virtual nodes of two nodes alternate, `true` first. -/
private def trueFirst : Hashing Bool Unit where
  token n i := 2 * i + (!n).toNat
  point _ := 0

/-- A cluster of two nodes. -/
private def twoNodes (q : QuorumConfig) : Cluster Bool Unit ℕ :=
  .create trueFirst [false, true] q fun _ => .async

/-- A write through `false` that `true` does not hear of. -/
private def lostWrite : List (Action Bool Unit ℕ) :=
  [.write false () 7 1000000, .advance 0 (.go 1000000 []), .advance 0 (.go 1000000 []), .drop 0,
    .advance 0 (.go 1000000 [])]

/-- A read through `true`, which asks `false`. -/
private def remoteRead : List (Action Bool Unit ℕ) :=
  [.read true (), .advance 1 (.go 2000000 []), .advance 1 (.go 2000000 [false]),
    .deliver 0 2000000, .deliver 0 2000000, .advance 1 (.go 2000000 []), .advance 1 .timeout,
    .advance 1 (.go 2000000 [])]

/-- One replica has the entry, and the read through the other one finds it. -/
theorem quorum_read_fresh_remote :
    ∃ w r x, (run (Cluster.step trueFirst) (twoNodes ⟨2, 1, 2⟩) lostWrite).calls[0]? =
        some (.write w) ∧ w.result = some .ok ∧
      (run (Cluster.step trueFirst) (twoNodes ⟨2, 1, 2⟩) (lostWrite ++ remoteRead)).calls[1]? =
        some (.read r) ∧ r.result = some (.found x) ∧
      (x.content = w.entry.content ∨ w.entry.stamp < x.stamp) := by
  have hok : ∃ w ∈ (run (Cluster.step trueFirst) (twoNodes ⟨2, 1, 2⟩) lostWrite).writeOf 0,
      w.result = some .ok := by decide +kernel
  have hfound : ∃ p ∈ foundBy (run (Cluster.step trueFirst) (twoNodes ⟨2, 1, 2⟩)
      (lostWrite ++ remoteRead)) 1, True := by decide +kernel
  obtain ⟨w, hw, hok⟩ := hok
  obtain ⟨⟨r, x⟩, hp, -⟩ := hfound
  obtain ⟨hr, hres⟩ := mem_foundBy hp
  obtain ⟨best, heq | heq, hfresh⟩ := quorum_read_fresh trueFirst [false, true] ⟨2, 1, 2⟩
    (fun _ => .async) (by decide) (fun _ => by decide) lostWrite remoteRead (by decide +kernel)
    (calls_of_writeOf hw) hok (by decide +kernel) hr rfl hres (fun k n h => by cases h)
  · cases heq
    exact ⟨w, r, x, calls_of_writeOf hw, hok, hr, hres, hfresh⟩
  · cases heq

/-- A write through `false`, which is no replica and keeps a copy, and a later one through `true`.
-/
private def twoWrites : List (Action Bool Unit ℕ) :=
  [.write false () 7 1000000, .advance 0 (.go 1000000 []), .advance 0 (.go 1000000 []),
    .deliver 0 1000000, .deliver 0 1000000, .advance 0 (.go 1000000 []),
    .write true () 8 2000000, .advance 1 (.go 2000000 []), .advance 1 (.go 2000000 []),
    .advance 1 (.go 2000000 [])]

/-- A read through `false`, which asks no other node. -/
private def localRead : List (Action Bool Unit ℕ) :=
  [.read false (), .advance 2 (.go 3000000 []), .advance 2 (.go 3000000 []),
    .advance 2 (.go 3000000 []), .advance 2 (.go 3000000 [])]

/-- With `N = W = R = 1`, the second write succeeds at the only replica, and a later read through
the other node answers with the first one. -/
theorem quorum_read_stale :
    ∃ w r x, (run (Cluster.step trueFirst) (twoNodes ⟨1, 1, 1⟩) twoWrites).calls[1]? =
        some (.write w) ∧ w.result = some .ok ∧
      (run (Cluster.step trueFirst) (twoNodes ⟨1, 1, 1⟩) twoWrites).calls.length ≤ 2 ∧
      (run (Cluster.step trueFirst) (twoNodes ⟨1, 1, 1⟩) (twoWrites ++ localRead)).calls[2]? =
        some (.read r) ∧ r.key = w.entry.key ∧ r.result = some (.found x) ∧
      x.stamp < w.entry.stamp := by
  have hstale : ∃ w ∈ (run (Cluster.step trueFirst) (twoNodes ⟨1, 1, 1⟩) twoWrites).writeOf 1,
      ∃ p ∈ foundBy (run (Cluster.step trueFirst) (twoNodes ⟨1, 1, 1⟩) (twoWrites ++ localRead)) 2,
        w.result = some .ok ∧ p.2.stamp < w.entry.stamp := by decide +kernel
  obtain ⟨w, hw, ⟨r, x⟩, hp, hok, hlt⟩ := hstale
  obtain ⟨hr, hres⟩ := mem_foundBy hp
  exact ⟨w, r, x, calls_of_writeOf hw, hok, by decide +kernel, hr, rfl, hres, hlt⟩

end Replication.Leaderless
