import Replication.Leaderless.Acks

/-!
# Leaderless · Reads: whose answers a read counts

A read asks each of its targets once, under a number of its own. A request is in flight, answered,
or waiting in a channel, so that no target is counted twice.
-/

set_option linter.unusedSectionVars false

namespace Replication.Leaderless

open Storage Node Clock Library Function List
open HashRing (Hashing)

variable {I K V : Type} [LinearOrder I] [DecidableEq K] [Inhabited V] [DecidableEq V]
  {n : LeaderlessNode I K V} {c c' : ReadCall I K V} {ev : Event I} {k : ℕ} {key : K} {m : I}
  {targets : List I} {H : Hashing I K} {s s' : Cluster I K V} {a : Action I K V}

/-! ### Requests and answers under way -/

/-- A message is the request to `r`, or its answer, for the call `k` of a coordinator. -/
def Message.isToken (n : I) (k : ℕ) (r : I) : Message I K V → Bool
  | .clientRead m t q _ _ => m = n ∧ q = k ∧ t = r
  | .syncAck m t q _ _ _ => t = n ∧ q = k ∧ m = r
  | _ => false

/-- The answers of `r` in a channel. -/
def waitingIn (tab : ℕ → Option (Chan (ReadResp I K V))) (k : ℕ) (r : I) : ℕ :=
  match tab k with
  | none => 0
  | some ch => ch.buf.countP fun x => x.senderID = r

/-- The answers of `r` that a read has taken. -/
def ReadCall.heard (c : ReadCall I K V) (r : I) : ℕ := c.remoteResps.countP fun x => x.senderID = r

/-- The request to `r`, or its answer, under way for the call `k` of a coordinator. -/
def Cluster.pending (s : Cluster I K V) (n : I) (k : ℕ) (r : I) : ℕ :=
  s.network.countP (Message.isToken n k r) + waitingIn (s.nodes n).readResps k r

section waiting

variable {tab : ℕ → Option (Chan (ReadResp I K V))} {q : ℕ} {x : ReadResp I K V}

/-- The answers in a channel, after a change of the table. -/
lemma waitingIn_update (o : Option (Chan (ReadResp I K V))) (k : ℕ) (r : I) :
    waitingIn (update tab q o) k r =
      if k = q then (match o with
        | none => 0
        | some ch => ch.buf.countP fun x => x.senderID = r)
      else waitingIn tab k r := by
  unfold waitingIn
  split_ifs with hk
  · rw [hk, update_self]
  · rw [update_of_ne hk]

/-- Closing a channel only loses answers. -/
lemma waitingIn_close (k : ℕ) (r : I) : waitingIn (update tab q none) k r ≤ waitingIn tab k r := by
  rw [waitingIn_update]
  split_ifs
  · exact Nat.zero_le _
  · exact le_rfl

/-- An answer that is taken was waiting. -/
lemma waitingIn_pop {ch : Chan (ReadResp I K V)} {buf : List (ReadResp I K V)}
    (hch : tab q = some ch) (hbuf : ch.buf = x :: buf) (k : ℕ) (r : I) :
    waitingIn (update tab q (some { ch with buf := buf })) k r +
        (if q = k ∧ x.senderID = r then 1 else 0) = waitingIn tab k r := by
  rw [waitingIn_update]
  by_cases hk : k = q
  · subst hk
    simp only [waitingIn, hch, hbuf, if_true, true_and, countP_cons, decide_eq_true_eq]
  · have hk' : ¬ q = k := fun h => hk h.symm
    simp only [hk, hk', if_false, false_and, Nat.add_zero]

/-- An answer that arrives waits, or is dropped. -/
lemma waitingIn_push {ch : Chan (ReadResp I K V)} (hch : tab q = some ch) (k : ℕ) (r : I) :
    waitingIn (update tab q (some (ch.push x))) k r ≤
      waitingIn tab k r + if q = k ∧ x.senderID = r then 1 else 0 := by
  rw [waitingIn_update]
  by_cases hk : k = q
  · subst hk
    simp only [waitingIn, hch, if_true, true_and, Chan.push]
    split_ifs <;> simp_all [countP_append]
  · have hk' : ¬ q = k := fun h => hk h.symm
    simp only [hk, hk', if_false, false_and, Nat.add_zero, le_refl]

end waiting

section steps

variable {n n' : LeaderlessNode I K V} {msgs : List (Message I K V)}

lemma readResps_applyWrite (n : LeaderlessNode I K V) (e : KVEntry I K V) (t : ℤ) :
    (n.applyWrite e t).readResps = n.readResps := by
  rw [applyWrite_frame]

lemma countP_isToken_eq_zero {r : I} (h : ∀ x ∈ msgs, Message.isToken m k r x = false) :
    msgs.countP (Message.isToken m k r) = 0 :=
  countP_eq_zero.mpr fun x hx => by rw [h x hx]; decide

/-- A write has nothing to do with requests and answers. -/
lemma WriteStep.waiting {c c' : WriteCall I K V} (h : WriteStep H c n n' c' msgs) :
    n'.readResps = n.readResps ∧ ∀ m k r, msgs.countP (Message.isToken m k r) = 0 := by
  cases h with
  | apply t => exact ⟨readResps_applyWrite n c.entry t, fun _ _ _ => rfl⟩
  | send =>
    refine ⟨rfl, fun m k r => countP_isToken_eq_zero fun x hx => ?_⟩
    obtain ⟨t, -, rfl⟩ := mem_map.mp hx
    rfl
  | wait n₁ acked stage result msgs _ hnode _ _ _ hmsgs =>
    constructor
    · obtain ⟨chans, rfl⟩ := hnode.frame
      rfl
    · rcases hmsgs with rfl | ⟨-, hmsgs⟩
      · exact fun _ _ _ => rfl
      · refine fun m k r => countP_isToken_eq_zero fun x hx => ?_
        obtain ⟨t, o, rfl⟩ := hmsgs x hx
        rfl
  | _ => exact ⟨rfl, fun _ _ _ => rfl⟩

/-- A read sends requests only under a new number. -/
lemma ReadStep.tokens (h : ReadStep H c n ev n' c' msgs) (hk : m = n.id → k ≤ n.seqNo) (r : I) :
    msgs.countP (Message.isToken m k r) = 0 := by
  refine countP_isToken_eq_zero fun x hx => ?_
  rcases h.msg_cases hx with ⟨t, d, rfl, -⟩ | ⟨t, e, rfl, -⟩ | ⟨t, e, rfl⟩
  · refine decide_eq_false fun htoken => ?_
    have := hk htoken.1.symm
    omega
  · rfl
  · rfl

/-- **A read takes answers out of its channel, one by one.** -/
theorem ReadStep.waiting (h : ReadStep H c n ev n' c' msgs) (hk : k ≤ n.seqNo) (r : I) :
    waitingIn n'.readResps k r ≤ waitingIn n.readResps k r ∧
      (k = c.seqNo → waitingIn n'.readResps k r + c'.heard r ≤
        waitingIn n.readResps k r + c.heard r) := by
  have hsame : ∀ {tab : ℕ → Option (Chan (ReadResp I K V))} {d : ReadCall I K V},
      waitingIn tab k r ≤ waitingIn n.readResps k r → d.remoteResps = c.remoteResps →
      waitingIn tab k r ≤ waitingIn n.readResps k r ∧
        (k = c.seqNo → waitingIn tab k r + d.heard r ≤ waitingIn n.readResps k r + c.heard r) := by
    intro tab d hle hd
    refine ⟨hle, fun _ => ?_⟩
    unfold ReadCall.heard
    rw [hd]
    exact Nat.add_le_add_right hle _
  cases h with
  | idle | readLocal | pick | fetch => exact hsame le_rfl rfl
  | send =>
    refine hsame ?_ rfl
    rw [waitingIn_update, if_neg (by omega)]
  | resp n₁ x _ hpop =>
    obtain ⟨ch, buf, hch, hbuf, rfl⟩ := popResp_eq_some hpop
    have hpop := waitingIn_pop hch hbuf k r
    refine ⟨by dsimp only; omega, ?_⟩
    rintro rfl
    simp only [ReadCall.heard, countP_append, countP_cons, countP_nil,
      decide_eq_true_eq, true_and] at hpop ⊢
    omega
  | fail | leave => exact hsame (waitingIn_close k r) rfl
  | repair n₁ best msgs _ _ hn =>
    obtain ⟨hlc, store, rfl⟩ := hn.frame
    exact hsame (waitingIn_close k r) rfl
  | repairSync n₁ best staleNodes _ _ hn =>
    obtain ⟨hlc, store, rfl⟩ := hn.frame
    exact hsame le_rfl rfl
  | ack n₁ x _ hpop =>
    obtain ⟨ch, buf, -, -, rfl⟩ := popAck_eq_some hpop
    exact hsame le_rfl rfl

/-- **A request is answered once**, and an answer goes into one channel. -/
theorem Handled.tokens {msg : Message I K V} {replies : List (Message I K V)}
    (h : Handled n msg n' replies) (hid : n.id = msg.target) (m : I) (k : ℕ) (r : I) :
    replies.countP (Message.isToken m k r) +
        (if m = msg.target then waitingIn n'.readResps k r else 0) ≤
      (if Message.isToken m k r msg = true then 1 else 0) +
        if m = msg.target then waitingIn n.readResps k r else 0 := by
  have hquiet : ∀ {tab : ℕ → Option (Chan (ReadResp I K V))} {x : Message I K V},
      tab = n.readResps → Message.isToken m k r x = false →
      [x].countP (Message.isToken m k r) + (if m = msg.target then waitingIn tab k r else 0) ≤
        (if Message.isToken m k r msg = true then 1 else 0) +
          if m = msg.target then waitingIn n.readResps k r else 0 := by
    intro tab x htab hx
    rw [htab, countP_isToken_eq_zero fun y hy => mem_singleton.mp hy ▸ hx]
    omega
  cases h with
  | write _ _ _ e _ t | hintedHandoff _ _ e t => exact hquiet (readResps_applyWrite n e t) rfl
  | writeAck sender target q =>
    have hsame : (n.pushAck q sender).readResps = n.readResps := by
      unfold LeaderlessNode.pushAck
      split <;> rfl
    rw [hsame, countP_nil]
    omega
  | clientRead sender target q key digest =>
    have htoken : Message.isToken m k r (n.readReply sender q key digest) =
        Message.isToken m k r (.clientRead sender target q key digest : Message I K V) := by
      unfold LeaderlessNode.readReply
      rw [hid]
      split
      · rfl
      · split_ifs <;> rfl
    rw [countP_cons, countP_nil, htoken]
    omega
  | syncAck sender target q key e hash =>
    rw [countP_nil]
    have hpush : waitingIn (n.pushResp q ⟨sender, e, hash⟩).readResps k r ≤
        waitingIn n.readResps k r + if q = k ∧ sender = r then 1 else 0 := by
      unfold LeaderlessNode.pushResp
      split
      · exact Nat.le_add_right _ _
      case h_2 ch hch => exact waitingIn_push hch k r
    simp only [Message.isToken, Message.target, decide_eq_true_eq]
    by_cases hm : m = target
    · subst hm
      simp only [true_and, if_true]
      omega
    · simp only [hm, if_false]
      omega
  | readRepair =>
    rw [readResps_applyWrite, countP_nil]
    omega

end steps

/-- A message that is delivered is in flight no more. -/
lemma countP_eraseIdx {p : Message I K V → Bool} {l : List (Message I K V)} {j : ℕ}
    {msg : Message I K V} (hj : l[j]? = some msg) :
    (l.eraseIdx j).countP p + (if p msg = true then 1 else 0) = l.countP p := by
  obtain ⟨hlt, rfl⟩ := List.getElem?_eq_some_iff.mp hj
  rw [← (getElem_cons_eraseIdx_perm hlt).countP_eq, countP_cons]

lemma countP_eraseIdx_le (p : Message I K V → Bool) (l : List (Message I K V)) (j : ℕ) :
    (l.eraseIdx j).countP p ≤ l.countP p :=
  (eraseIdx_sublist l j).countP_le

lemma waitingIn_nodes {n : I} {node : LeaderlessNode I K V} {r : I} :
    waitingIn (update s.nodes m node n).readResps k r =
      if n = m then waitingIn node.readResps k r else waitingIn (s.nodes n).readResps k r := by
  split_ifs with hn
  · rw [hn, update_self]
  · rw [update_of_ne hn]

/-- A node that keeps its channels changes no count. -/
lemma waitingIn_nodes_eq {node : LeaderlessNode I K V} (n : I) (k : ℕ) (r : I)
    (h : node.readResps = (s.nodes m).readResps) :
    waitingIn (update s.nodes m node n).readResps k r = waitingIn (s.nodes n).readResps k r := by
  rw [waitingIn_nodes, h]
  split_ifs with hn
  · rw [hn]
  · rfl

/-- **No request or answer is doubled**, in any step. -/
theorem pending_move (h : Move H s a s') (hs : Strict s) {n : I} (hk : k ≤ (s.nodes n).seqNo)
    (r : I) : s'.pending n k r ≤ s.pending n k r := by
  unfold Cluster.pending
  cases h with
  | idle | startRead => exact le_rfl
  | lose j => exact Nat.add_le_add_right (countP_eraseIdx_le _ _ j) _
  | adjust | invoke =>
    unfold Cluster.setNode
    exact Nat.add_le_add_left (waitingIn_nodes_eq n k r (by rfl)).le _
  | write i c c' n' msgs _ hi hmove =>
    obtain ⟨hresps, hmsgs⟩ := hmove.waiting
    dsimp only
    rw [countP_append, hmsgs, waitingIn_nodes_eq n k r hresps, Nat.add_zero]
  | read i ev c c' n' msgs _ hi hmove =>
    dsimp only
    have hzero : msgs.countP (Message.isToken n k r) = 0 := by
      refine hmove.tokens (fun hn => ?_) r
      rw [hs.id] at hn
      rw [← hn]
      exact hk
    rw [countP_append, hzero, waitingIn_nodes]
    split_ifs with hn
    · subst hn
      have := (hmove.waiting hk r).1
      omega
    · omega
  | deliver j msg n' replies _ hj hmove =>
    dsimp only
    have htokens := hmove.tokens (hs.id msg.target) n k r
    have hcount := countP_eraseIdx (p := Message.isToken n k r) hj
    rw [countP_append, waitingIn_nodes]
    by_cases hn : n = msg.target
    · subst hn
      simp only [eq_self, if_true] at htokens ⊢
      omega
    · simp only [hn, if_false] at htokens ⊢
      omega
  | hints m =>
    dsimp only
    have hzero : ((s.nodes m).hints.map fun h =>
        (.hintedHandoff (s.nodes m).id h.1 h.2 : Message I K V)).countP
          (Message.isToken n k r) = 0 := by
      refine countP_isToken_eq_zero fun x hx => ?_
      obtain ⟨h, -, rfl⟩ := mem_map.mp hx
      rfl
    rw [countP_append, hzero, Nat.add_zero]
    exact Nat.add_le_add_left (waitingIn_nodes_eq n k r (by rfl)).le _

/-- What a read hears was under way. -/
lemma pending_heard_move {msgs : List (Message I K V)}
    (hmove : ReadStep H c (s.nodes c.node) ev (s'.nodes c.node) c' msgs)
    (hnetwork : s'.network = s.network ++ msgs) (hbound : c.seqNo ≤ (s.nodes c.node).seqNo)
    (r : I) :
    s'.pending c.node c.seqNo r + c'.heard r ≤ s.pending c.node c.seqNo r + c.heard r := by
  unfold Cluster.pending
  have hzero := hmove.tokens (m := c.node) (fun _ => hbound) r
  have hwaiting := (hmove.waiting hbound r).2 rfl
  rw [hnetwork, countP_append, hzero]
  omega

/-! ### Targets -/

/-- No node is a candidate twice. -/
lemma nodup_readCandidates (hnodup : (n.replicasFor H key).Nodup) (count : ℤ) :
    (n.readCandidates H key count).Nodup := by
  dsimp only [LeaderlessNode.readCandidates]
  split_ifs
  · refine (hnodup.filter _).append (HashRing.nodup_firsts _) fun x hx hx' => ?_
    rw [HashRing.mem_firsts, mem_filter, decide_eq_true_eq] at hx'
    exact hx'.2 hx
  · exact hnodup.filter _

/-- No node is asked twice. -/
lemma nodup_of_readTargets (hnodup : (n.replicasFor H key).Nodup) {count : ℤ}
    (h : n.readTargets H key count targets = true) : targets.Nodup := by
  have hcand := nodup_readCandidates hnodup count
  dsimp only [LeaderlessNode.readTargets] at h
  split_ifs at h
  · rw [of_decide_eq_true h]
    exact hcand
  · rw [nodup_iff_count_le_one] at hcand ⊢
    exact fun x => ((of_decide_eq_true h).2.count_le x).trans (hcand x)

/-- A coordinator does not ask itself. -/
lemma id_notMem_of_readTargets {count : ℤ} (h : n.readTargets H key count targets = true) :
    n.id ∉ targets := by
  have hcand : n.id ∉ n.readCandidates H key count := by
    dsimp only [LeaderlessNode.readCandidates, LeaderlessNode.getOtherNodes]
    split_ifs
    · simp [HashRing.mem_firsts]
    · simp
  intro hmem
  dsimp only [LeaderlessNode.readTargets] at h
  split_ifs at h
  · rw [of_decide_eq_true h] at hmem
    exact hcand hmem
  · exact hcand ((of_decide_eq_true h).2.subset hmem)

/-- At worst, a read counts all of its targets that are no replicas and one target less than its
quorum: what is left are enough replicas to meet every set of `W` replicas. -/
def Overlap (H : Hashing I K) (n : LeaderlessNode I K V) (key : K) (targets : List I) : Prop :=
  n.qConfig.N + (targets.filter fun t => t ∉ n.replicasFor H key).length + 1 <
    n.qConfig.W + n.qConfig.R + if n.id ∈ n.replicasFor H key then 1 else 0

instance (n : LeaderlessNode I K V) (key : K) (targets : List I) :
    Decidable (Overlap H n key targets) :=
  inferInstanceAs (Decidable (_ < _))

/-- The overlap depends on the settings only. -/
lemma overlap_congr {n' : LeaderlessNode I K V} (h : n'.config = n.config)
    (hoverlap : Overlap H n key targets) : Overlap H n' key targets := by
  unfold Overlap at hoverlap ⊢
  have hq : n'.qConfig = n.qConfig := congrArg Config.qConfig h
  have hid : n'.id = n.id := congrArg Config.id h
  rw [hq, hid, replicasFor_congr h]
  exact hoverlap

/-- A read that sends its requests can rely on enough replicas. -/
def Cluster.overlaps (H : Hashing I K) (s : Cluster I K V) : Action I K V → Bool
  | .advance i (.go _ targets) =>
    match s.calls[i]? with
    | some (.read c) => c.stage ≠ .send ∨ Overlap H (s.nodes c.node) c.key targets
    | _ => true
  | _ => true

/-! ### The invariant -/

/-- What the answer of a read says about the versions it has seen. -/
def ReadCall.Answers (c : ReadCall I K V) (R : ℤ) (res : ReadResult I K V) : Prop :=
  (∃ k r, res = .quorumNotMet k r) ∨
    R ≤ 1 + c.remoteResps.length ∧ (res = .notFound ∧ newest c.responses = none ∨
      ∃ b, newest c.responses = some b ∧ (res = .found b ∨ res = .deleted b))

/-- What is known about a read without stand-ins and digests. -/
structure ReadOK (H : Hashing I K) (s : Cluster I K V) (c : ReadCall I K V) : Prop where
  bound : c.seqNo ≤ (s.nodes c.node).seqNo
  unsent : c.seqNo = 0 ↔ c.stage = .readLocal ∨ c.stage = .send
  full : c.stage ≠ .fetch
  /-- It decides after it has collected responses. -/
  early : c.stage = .readLocal ∨ c.stage = .send ∨ c.stage = .await →
    c.best = none ∧ c.result = none
  /-- There are no responses before there are requests. -/
  silent : c.seqNo = 0 → c.remoteResps = []
  others : c.node ∉ c.targets
  /-- Every target is counted once, and no other node. -/
  counted : c.seqNo ≠ 0 → ∀ r,
    s.pending c.node c.seqNo r + c.heard r ≤ if r ∈ c.targets then 1 else 0
  overlap : c.seqNo ≠ 0 → Overlap H (s.nodes c.node) c.key c.targets
  best : ∀ b, c.best = some b → newest c.responses = some b ∧
    (s.nodes c.node).qConfig.R ≤ 1 + c.remoteResps.length
  answer : ∀ res, c.result = some res → c.Answers (s.nodes c.node).qConfig.R res

/-- The numbers of requests and answers have been given out, and reads are in order. -/
structure ReadInv (H : Hashing I K) (s : Cluster I K V) : Prop where
  requests : ∀ n t k key d, .clientRead n t k key d ∈ s.network → k ≤ (s.nodes n).seqNo
  answers : ∀ r n k key e hash, .syncAck r n k key e hash ∈ s.network → k ≤ (s.nodes n).seqNo
  chans : ∀ n k ch, (s.nodes n).readResps k = some ch → k ≤ (s.nodes n).seqNo
  calls : ∀ c, .read c ∈ s.calls → ReadOK H s c

/-- Nothing is under way for a number that was not given out. -/
lemma ReadInv.pending_eq_zero (hinv : ReadInv H s) {n : I} (hk : (s.nodes n).seqNo < k) (r : I) :
    s.pending n k r = 0 := by
  have hmsgs : s.network.countP (Message.isToken n k r) = 0 := by
    refine countP_isToken_eq_zero fun m hm => ?_
    cases m with
    | clientRead m t q key d =>
      refine decide_eq_false fun ⟨hn, hq, _⟩ => ?_
      have := hinv.requests m t q key d hm
      rw [hn] at this
      omega
    | syncAck m t q key e hash =>
      refine decide_eq_false fun ⟨hn, hq, _⟩ => ?_
      have := hinv.answers m t q key e hash hm
      rw [hn] at this
      omega
    | _ => rfl
  have hchan : waitingIn (s.nodes n).readResps k r = 0 := by
    unfold waitingIn
    split
    · rfl
    case h_2 ch hch =>
      have := hinv.chans n k ch hch
      omega
  rw [Cluster.pending, hmsgs, hchan]

/-- What is known about a read stays known while others move. -/
lemma ReadOK.move (hok : ReadOK H s c) (h : Move H s a s') (hs : Strict s) : ReadOK H s' c := by
  have hconfig := (h.nodeStep c.node).config
  have hR : (s'.nodes c.node).qConfig.R = (s.nodes c.node).qConfig.R :=
    congrArg (fun x => (Config.qConfig x).R) hconfig
  refine ⟨hok.bound.trans (h.nodeStep c.node).seqNo, hok.unsent, hok.full, hok.early, hok.silent,
    hok.others, fun hsent r => ?_, fun hsent => overlap_congr hconfig (hok.overlap hsent), ?_, ?_⟩
  · have := pending_move h hs hok.bound r
    have := hok.counted hsent r
    omega
  · rw [hR]
    exact hok.best
  · rw [hR]
    exact hok.answer

/-- Each target gets one request. -/
lemma countP_requests (targets : List I) (hnodup : targets.Nodup) (n : I) (k : ℕ) (key : K)
    (d : Bool) (r : I) :
    (targets.map fun t => (.clientRead n t k key d : Message I K V)).countP
      (Message.isToken n k r) = if r ∈ targets then 1 else 0 := by
  rw [countP_map]
  have hcount : targets.countP (Message.isToken n k r ∘ fun t =>
      (.clientRead n t k key d : Message I K V)) = targets.count r := by
    refine countP_congr fun t _ => ?_
    simp [Message.isToken]
  rw [hcount, hnodup.count]

/-- A read past its first stages has a number. -/
lemma ReadOK.sent (hok : ReadOK H s c) (hstage : ¬ (c.stage = .readLocal ∨ c.stage = .send)) :
    c.seqNo ≠ 0 :=
  fun h0 => hstage (hok.unsent.mp h0)

/-- What is known about a read that has collected its responses. -/
lemma ReadOK.goOn (hok : ReadOK H s c) (hstage : ¬ (c.stage = .readLocal ∨ c.stage = .send))
    {best : Option (KVEntry I K V)} {staleNodes : List I} {repairSeqNo : ℕ} {acked : List I}
    {stage : ReadStage} {result : Option (ReadResult I K V)}
    (hstage' : stage = .repair ∨ stage = .repairSync ∨ stage = .done)
    (hbest : ∀ b, best = some b → newest c.responses = some b ∧
      (s.nodes c.node).qConfig.R ≤ 1 + c.remoteResps.length)
    (hresult : ∀ res, result = some res → c.Answers (s.nodes c.node).qConfig.R res) :
    ReadOK H s
      { c with
        best := best, staleNodes := staleNodes, repairSeqNo := repairSeqNo, acked := acked
        stage := stage, result := result } := by
  have hlate : ¬ (stage = .readLocal ∨ stage = .send) ∧ stage ≠ .fetch ∧
      ¬ (stage = .readLocal ∨ stage = .send ∨ stage = .await) := by
    rcases hstage' with rfl | rfl | rfl <;> decide
  exact ⟨hok.bound, iff_of_false (hok.sent hstage) hlate.1, hlate.2.1,
    fun h => absurd h hlate.2.2, hok.silent, hok.others, hok.counted, hok.overlap, hbest, hresult⟩

/-- The answer of a read is its newest version. -/
lemma answers_answer {R : ℤ} {b : KVEntry I K V}
    (hbest : newest c.responses = some b ∧ R ≤ 1 + c.remoteResps.length) {res : ReadResult I K V}
    (hres : some (ReadCall.answer b) = some res) : c.Answers R res := by
  cases hres
  refine .inr ⟨hbest.2, .inr ⟨b, hbest.1, ?_⟩⟩
  unfold ReadCall.answer
  split_ifs
  · exact .inr rfl
  · exact .inl rfl

/-- A read looks up its own version. -/
lemma ReadOK.readLocal (hok : ReadOK H s c) (hstage : c.stage = .readLocal)
    (e : Option (KVEntry I K V)) : ReadOK H s { c with localEntry := e, stage := .send } := by
  have hseq : c.seqNo = 0 := hok.unsent.mpr (.inl hstage)
  obtain ⟨hbest, hresult⟩ := hok.early (.inl hstage)
  refine ⟨hok.bound, iff_of_true hseq (.inr rfl), fun h => ?_, fun _ => ⟨hbest, hresult⟩,
    hok.silent, hok.others, fun hne => absurd hseq hne, fun hne => absurd hseq hne,
    fun b hb => ?_, fun res hres => ?_⟩
  · cases h
  · simp [hbest] at hb
  · simp [hresult] at hres

/-- A read sends its requests. -/
lemma ReadInv.send (hinv : ReadInv H s) (h : Move H s a s') (hok : ReadOK H s c)
    (hstage : c.stage = .send) (hnodup : targets.Nodup) (hother : c.node ∉ targets)
    (hoverlap : Overlap H (s.nodes c.node) c.key targets) {d : Bool} {cap : ℕ} (remoteNeeded : ℤ)
    (hseq' : (s'.nodes c.node).seqNo = (s.nodes c.node).seqNo + 1)
    (hresps : (s'.nodes c.node).readResps =
      update (s.nodes c.node).readResps ((s.nodes c.node).seqNo + 1) (some ⟨cap, []⟩))
    (hnetwork : s'.network = s.network ++ targets.map fun t =>
      .clientRead c.node t ((s.nodes c.node).seqNo + 1) c.key d) :
    ReadOK H s'
      { c with
        remoteNeeded := remoteNeeded, targets := targets, seqNo := (s.nodes c.node).seqNo + 1
        stage := .await } := by
  have hseq : c.seqNo = 0 := hok.unsent.mpr (.inr hstage)
  obtain ⟨hbest, hresult⟩ := hok.early (.inr (.inl hstage))
  refine ⟨hseq'.ge, iff_of_false (Nat.succ_ne_zero _) ?_, fun h => ?_, fun _ => ⟨hbest, hresult⟩,
    fun h0 => absurd h0 (Nat.succ_ne_zero _), hother, fun _ r => ?_,
    fun _ => overlap_congr (h.nodeStep c.node).config hoverlap, fun b hb => ?_, fun res hres => ?_⟩
  · rintro (h | h) <;> cases h
  · cases h
  · -- nothing was under way for the new number
    have hzero : s.pending c.node ((s.nodes c.node).seqNo + 1) r = 0 :=
      hinv.pending_eq_zero (Nat.lt_succ_self _) r
    have hheard : c.heard r = 0 := by rw [ReadCall.heard, hok.silent hseq, countP_nil]
    have hchan : waitingIn (s'.nodes c.node).readResps ((s.nodes c.node).seqNo + 1) r = 0 := by
      rw [hresps, waitingIn_update, if_pos rfl]
      rfl
    have hcount := countP_requests (V := V) targets hnodup c.node ((s.nodes c.node).seqNo + 1)
      c.key d r
    unfold Cluster.pending at hzero
    change s'.network.countP (Message.isToken c.node ((s.nodes c.node).seqNo + 1) r) +
      waitingIn (s'.nodes c.node).readResps ((s.nodes c.node).seqNo + 1) r + c.heard r ≤
        if r ∈ targets then 1 else 0
    rw [hnetwork, countP_append, hcount, hchan]
    omega
  · simp [hbest] at hb
  · simp [hresult] at hres

/-- **What is known about a read stays known** when it moves. -/
theorem readOK_move (h : Move H s a s') (hs : Strict s)
    (hmode : ∀ n, (s.nodes n).repairMode ≠ .digest)
    (hnodup : ∀ n key, ((s.nodes n).replicasFor H key).Nodup) (hcond : s.overlaps H a = true)
    (hinv : ReadInv H s) {i : ℕ} {msgs : List (Message I K V)} (ha : a = .advance i ev)
    (hi : s.calls[i]? = some (.read c))
    (hmove : ReadStep H c (s.nodes c.node) ev (s'.nodes c.node) c' msgs)
    (hnetwork : s'.network = s.network ++ msgs) : ReadOK H s' c' := by
  have hold := hinv.calls c (mem_of_getElem? hi)
  have hok := hold.move h hs
  have hR : (s'.nodes c.node).qConfig.R = (s.nodes c.node).qConfig.R :=
    congrArg (fun x => (Config.qConfig x).R) (h.nodeStep c.node).config
  have hheard := pending_heard_move hmove hnetwork hold.bound
  have hlate : ∀ st : ReadStage, st = .await ∨ st = .repair ∨ st = .repairSync →
      ¬ (st = .readLocal ∨ st = .send) := by
    rintro st (rfl | rfl | rfl) <;> decide
  generalize hn' : s'.nodes c.node = n' at hmove
  cases hmove with
  | idle => exact hok
  | readLocal hstage => exact hok.readLocal hstage _
  | send t targets hev hstage htargets =>
    rw [hs.id] at hnetwork
    have hother : c.node ∉ targets := by
      have := id_notMem_of_readTargets htargets
      rwa [hs.id] at this
    refine hinv.send h hold hstage (nodup_of_readTargets (hnodup c.node c.key) htargets) hother ?_
      _ (by rw [hn']) (by rw [hn']) hnetwork
    subst ha hev
    simp only [Cluster.overlaps, hi, hstage, decide_eq_true_eq] at hcond
    exact hcond.resolve_left fun hne => hne rfl
  | resp n₁ x hstage =>
    have hsent := hold.sent (hlate c.stage (.inl hstage))
    obtain ⟨hbest, hresult⟩ := hold.early (.inr (.inr hstage))
    refine ⟨hok.bound, hok.unsent, hok.full, hok.early, fun h0 => absurd h0 hsent, hok.others,
      fun _ r => (hheard r).trans (hold.counted hsent r), hok.overlap, fun b hb => ?_,
      fun res hres => ?_⟩
    · simp [hbest] at hb
    · simp [hresult] at hres
  | pick best stage hstage hquorum hnewest hstage' =>
    obtain rfl : stage = .repair := hstage'.resolve_left fun hdigest => hmode c.node hdigest.2
    refine hok.goOn (hlate c.stage (.inl hstage)) (.inl rfl) (fun b hb => ?_) hok.answer
    cases hb
    rw [hR]
    exact ⟨hnewest, hquorum⟩
  | fail result hstage hresult =>
    refine hok.goOn (hlate c.stage (.inl hstage)) (.inr (.inr rfl)) hok.best fun res hres => ?_
    cases hres
    rw [hR]
    exact hresult.imp_right fun ⟨hres, hquorum, hnone⟩ => ⟨hquorum, .inl ⟨hres, hnone⟩⟩
  | fetch best hstage => exact absurd hstage hold.full
  | repair n₁ best msgs hstage hbest =>
    exact hok.goOn (hlate c.stage (.inr (.inl hstage))) (.inr (.inr rfl)) hok.best
      fun res hres => answers_answer (hok.best best hbest) hres
  | repairSync n₁ best staleNodes hstage =>
    exact hok.goOn (hlate c.stage (.inr (.inl hstage))) (.inr (.inl rfl)) hok.best hok.answer
  | ack n₁ x hstage =>
    exact hok.goOn (hlate c.stage (.inr (.inr hstage))) (.inr (.inl hstage)) hok.best hok.answer
  | leave best hstage hbest =>
    exact hok.goOn (hlate c.stage (.inr (.inr hstage))) (.inr (.inr rfl)) hok.best
      fun res hres => answers_answer (hok.best best hbest) hres

/-- **Reads stay in order.** -/
theorem readInv_move (h : Move H s a s') (hs : Strict s)
    (hmode : ∀ n, (s.nodes n).repairMode ≠ .digest)
    (hnodup : ∀ n key, ((s.nodes n).replicasFor H key).Nodup) (hcond : s.overlaps H a = true)
    (hinv : ReadInv H s) : ReadInv H s' := by
  have hseq : ∀ n, (s.nodes n).seqNo ≤ (s'.nodes n).seqNo := fun n => (h.nodeStep n).seqNo
  refine ⟨fun n t k key d hm => ?_, fun r n k key e hash hm => ?_, fun n k ch hch => ?_,
    fun c' hc' => ?_⟩
  · rcases h.sent hs hm with hm | hsent
    · exact (hinv.requests n t k key d hm).trans (hseq n)
    · cases hsent with
      | clientRead i ev c t d _ _ hseq' => exact hseq'.ge
  · rcases h.sent hs hm with hm | hsent
    · exact (hinv.answers r n k key e hash hm).trans (hseq n)
    · cases hsent with
      | syncAck r n k key e hash d hrequest =>
        exact (hinv.requests n r k key d hrequest).trans (hseq n)
  · rcases (h.chanStep n).2 k ch hch with ⟨hk, hseq', -⟩ | ⟨ch₀, hch₀, -⟩
    · omega
    · exact (hinv.chans n k ch₀ hch₀).trans (hseq n)
  · obtain ⟨i, hi⟩ := mem_iff_getElem?.mp hc'
    cases h.origin hi with
    | old _ hi => exact (hinv.calls c' (mem_of_getElem? hi)).move h hs
    | read ev c _ msgs ha hi hmove hnetwork =>
      exact readOK_move h hs hmode hnodup hcond hinv ha hi hmove hnetwork
    | get =>
      refine ⟨Nat.zero_le _, iff_of_true rfl (.inl rfl), fun hst => ?_, fun _ => ⟨rfl, rfl⟩,
        fun _ => rfl, not_mem_nil, fun hne => absurd rfl hne, fun hne => absurd rfl hne,
        fun b hb => ?_, fun res hres => ?_⟩
      · cases hst
      · cases hb
      · cases hres

/-- No numbers are in use at first. -/
lemma readInv_init {nodes : I → LeaderlessNode I K V}
    (hresps : ∀ n k, (nodes n).readResps k = none) : ReadInv H (Cluster.init nodes) := by
  refine ⟨fun _ _ _ _ _ hm => ?_, fun _ _ _ _ _ _ hm => ?_, fun n k ch hch => ?_, fun _ hc => ?_⟩
  · cases hm
  · cases hm
  · cases (hresps n k).symm.trans hch
  · cases hc

end Replication.Leaderless
