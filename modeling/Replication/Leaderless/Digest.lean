import Replication.Leaderless.Levels

/-!
# Leaderless · Digest: reads that compare hashes

In digest mode the other replicas answer with metadata and a hash, and `Read` asks for the value of
the newest version with `fetchFull`. The request of `fetchFull` has no target, and for a version
that the coordinator wrote it looks into the coordinator's own store.

* `outcome` — the same in closed form (`result_readRun`).
-/

set_option linter.unusedSectionVars false

namespace Replication.Leaderless

open Storage Node Clock Library Function List
open HashRing (Hashing)

variable {I K V : Type} [LinearOrder I] [DecidableEq K] [Inhabited V] [DecidableEq V]
  {best : KVEntry I K V} {key : K} {r : I} {rest targets : List I} {H : Hashing I K}
  {c : ReadCall I K V} {s : Cluster I K V}

/-! ### Reads -/

/-- An error that a client of `Read` gets. -/
inductive ReadError where
  /-- "read quorum not met: %d/%d responses for key %q". -/
  | quorumNotMet (collected : ℕ) (r : ℤ)
  /-- "key %q not found". -/
  | notFound
  deriving DecidableEq, Repr

/-- What the client is told. -/
def ReadResult.reply : ReadResult I K V → Except ReadError (KVEntry I K V)
  | .quorumNotMet k r => .error (.quorumNotMet k r)
  | .notFound => .error .notFound
  | .deleted _ => .error .notFound
  | .found best => .ok best

/-- The requests of `rest` are on their way, and the given nodes answer in this order. -/
def answers : List I → List I → List (Action I K V)
  | _, [] => []
  | rest, r :: responders =>
    .deliver (rest.idxOf r) 0 :: .deliver (rest.length - 1) 0 :: .advance 0 (.go 0 []) ::
      answers (rest.erase r) responders

/-- What a read does after its responses: its timer fires if it still waits, it fetches or repairs,
its timer fires again if it waits for that, and it repairs if it has not. -/
def lastEvents : List (Event I) := [.timeout, .go 0 [], .timeout, .go 0 []]

/-- A read of a key through a node that asks `targets` and hears `responders`. -/
def readRun (n : I) (key : K) (targets responders : List I) : List (Action I K V) :=
  [.read n key, .advance 0 (.go 0 []), .advance 0 (.go 0 targets)] ++ answers targets responders ++
    lastEvents.map (.advance 0)

/-- The same cluster, with another repair mode at a node. -/
def Cluster.withMode (s : Cluster I K V) (n : I) (mode : ReadRepairMode) : Cluster I K V :=
  s.setNode n { s.nodes n with repairMode := mode }

/-- What the client of the first call gets, if that is a read that has returned. -/
def Cluster.firstReply (s : Cluster I K V) : Option (Except ReadError (KVEntry I K V)) :=
  match s.calls with
  | .read c :: _ => c.result.map ReadResult.reply
  | _ => none

/-- What the client of a read gets in a repair mode. -/
def Cluster.readReply (H : Hashing I K) (s : Cluster I K V) (mode : ReadRepairMode) (n : I)
    (key : K) (targets responders : List I) : Option (Except ReadError (KVEntry I K V)) :=
  (run (Cluster.step H) (s.withMode n mode) (readRun n key targets responders)).firstReply

/-! ### The last sections -/

section last

variable {n : LeaderlessNode I K V}

/-- Sections of a read that nothing comes between. -/
def ReadCall.runEvents (H : Hashing I K) (p : LeaderlessNode I K V × ReadCall I K V)
    (evs : List (Event I)) : LeaderlessNode I K V × ReadCall I K V :=
  evs.foldl (fun p ev => ((p.2.advance p.1 H ev).1, (p.2.advance p.1 H ev).2.1)) p

/-- A read stays at its coordinator. -/
lemma advance_node (c : ReadCall I K V) (n : LeaderlessNode I K V) (ev : Event I) :
    (c.advance n H ev).2.1.node = c.node := by
  have hstep := readStep_advance H c n ev
  generalize (c.advance n H ev).1 = n' at hstep
  generalize (c.advance n H ev).2.2 = msgs at hstep
  generalize (c.advance n H ev).2.1 = c' at hstep ⊢
  cases hstep <;> rfl

/-- Steps of a cluster in which only a read goes on. -/
lemma calls_run_advances (evs : List (Event I)) (hcalls : s.calls = [.read c]) :
    (run (Cluster.step H) s (evs.map (.advance 0))).calls =
      [.read (ReadCall.runEvents H (s.nodes c.node, c) evs).2] := by
  induction evs generalizing s c with
  | nil => exact hcalls
  | cons ev evs ih =>
    have hstep : s.step H (.advance 0 ev) =
        ⟨update s.nodes c.node (c.advance (s.nodes c.node) H ev).1,
          [.read (c.advance (s.nodes c.node) H ev).2.1],
          s.network ++ (c.advance (s.nodes c.node) H ev).2.2⟩ := by
      simp only [Cluster.step, hcalls, getElem?_cons_zero, set_cons_zero]
    rw [map_cons, run_cons, hstep, ih rfl]
    dsimp only
    rw [advance_node, update_self]
    rfl

/-- A read that has returned does nothing. -/
lemma advance_done (hstage : c.stage = .done) (ev : Event I) : c.advance n H ev = (n, c, []) := by
  unfold ReadCall.advance
  rw [hstage]

lemma runEvents_cons (n : LeaderlessNode I K V) (c : ReadCall I K V) (ev : Event I)
    (evs : List (Event I)) : ReadCall.runEvents H (n, c) (ev :: evs) =
      ReadCall.runEvents H ((c.advance n H ev).1, (c.advance n H ev).2.1) evs := rfl

lemma runEvents_done (hstage : c.stage = .done) (evs : List (Event I)) :
    ReadCall.runEvents H (n, c) evs = (n, c) := by
  induction evs with
  | nil => rfl
  | cons ev evs ih =>
    rw [runEvents_cons, advance_done hstage]
    exact ih

/-- The newest version after `fetchFull`. -/
def fetched (mode : ReadRepairMode) (n : I) (stored : Option (KVEntry I K V))
    (best : KVEntry I K V) : KVEntry I K V :=
  if mode = .digest ∧ best.value = default ∧ best.tombstone = false ∧ best.nodeID = n then
    stored.getD best
  else best

/-- What a read returns, from its own version and the responses it heard. -/
def outcome (q : ℤ) (mode : ReadRepairMode) (n : I) (stored : Option (KVEntry I K V))
    (resps : List (ReadResp I K V)) : ReadResult I K V :=
  if ((1 + resps.length : ℕ) : ℤ) < q then .quorumNotMet (1 + resps.length) q
  else
    match newest (stored.toList ++ resps.filterMap ReadResp.entry) with
    | none => .notFound
    | some best => ReadCall.answer (fetched mode n stored best)

/-- A read returns, or waits for its repairs. -/
lemma sendRepairs_cases (n : LeaderlessNode I K V) (best : KVEntry I K V) :
    (c.sendRepairs n best).2.1.stage = .done ∧
        (c.sendRepairs n best).2.1.result = some (ReadCall.answer best) ∨
      n.repairMode = .sync ∧ (c.sendRepairs n best).2.1.stage = .repairSync ∧
        (c.sendRepairs n best).2.1.best = c.best := by
  dsimp only [ReadCall.sendRepairs]
  split_ifs with hstale hsync
  · exact .inr ⟨hsync, rfl, rfl⟩
  · exact .inl ⟨rfl, rfl⟩
  · exact .inl ⟨rfl, rfl⟩

/-- The same for the section that repairs. -/
lemma advance_repair (hstage : c.stage = .repair) (hbest : c.best = some best) (t : ℤ)
    (ts : List I) :
    (c.advance n H (.go t ts)).2.1.stage = .done ∧
        (c.advance n H (.go t ts)).2.1.result = some (ReadCall.answer best) ∨
      n.repairMode = .sync ∧ (c.advance n H (.go t ts)).2.1.stage = .repairSync ∧
        (c.advance n H (.go t ts)).2.1.best = some best := by
  have hadvance : c.advance n H (.go t ts) = c.repair n best t := by
    unfold ReadCall.advance
    simp only [hstage, hbest]
  rw [hadvance, ReadCall.repair]
  have hcases := sendRepairs_cases (c := c)
    (if c.isBehind best = true ∧ hasContent best = true then n.applyWrite best t else n) best
  rw [hbest] at hcases
  refine hcases.imp_right fun ⟨hsync, hrest⟩ => ⟨?_, hrest⟩
  split_ifs at hsync
  · rw [applyWrite_frame] at hsync
    exact hsync
  · exact hsync

/-- The timer ends the wait for repairs. -/
lemma advance_repairSync (hstage : c.stage = .repairSync) (hbest : c.best = some best) :
    (c.advance n H .timeout).2.1.stage = .done ∧
      (c.advance n H .timeout).2.1.result = some (ReadCall.answer best) := by
  unfold ReadCall.advance
  simp only [hstage, hbest, ReadCall.finish, and_self]

/-- A read that repairs returns its newest version. -/
lemma runEvents_repair (hstage : c.stage = .repair) (hbest : c.best = some best) :
    (ReadCall.runEvents H (n, c) [.go 0 [], .timeout, .go 0 []]).2.result =
      some (ReadCall.answer best) := by
  rw [runEvents_cons]
  rcases advance_repair (H := H) (n := n) hstage hbest 0 [] with
    ⟨hdone, hresult⟩ | ⟨-, hsync, hbest'⟩
  · rw [runEvents_done hdone]
    exact hresult
  · obtain ⟨hdone, hresult⟩ := advance_repairSync (H := H)
      (n := (c.advance n H (.go 0 [])).1) hsync hbest'
    rw [runEvents_cons, runEvents_done hdone]
    exact hresult

/-- In digest mode it does so at once. -/
lemma runEvents_repair_digest (hmode : n.repairMode = .digest) (hstage : c.stage = .repair)
    (hbest : c.best = some best) :
    (ReadCall.runEvents H (n, c) [.go 0 []]).2.result = some (ReadCall.answer best) := by
  rcases advance_repair (H := H) (n := n) hstage hbest 0 [] with ⟨-, hresult⟩ | ⟨hsync, -⟩
  · exact hresult
  · simp [hmode] at hsync

/-- `fetchFull` looks into the coordinator's own store, or gets no answer. -/
lemma runEvents_fetch (hmode : n.repairMode = .digest) (hstage : c.stage = .fetch)
    (hbest : c.best = some best) :
    (ReadCall.runEvents H (n, c) [.go 0 [], .timeout, .go 0 []]).2.result =
      some (ReadCall.answer
        (if best.nodeID = n.id then (n.store.getRaw c.key).getD best else best)) := by
  by_cases hid : best.nodeID = n.id
  · -- the local branch answers at once
    have hgo : c.advance n H (.go 0 []) =
        (n, { c with best := some ((n.store.getRaw c.key).getD best), stage := .repair }, []) := by
      unfold ReadCall.advance
      simp only [hstage, hbest, hid, if_true]
    rw [if_pos hid, runEvents_cons, hgo, runEvents_cons]
    have hidle : ({ c with best := some ((n.store.getRaw c.key).getD best), stage := .repair } :
        ReadCall I K V).advance n H .timeout = (n, { c with
          best := some ((n.store.getRaw c.key).getD best), stage := .repair }, []) := rfl
    rw [hidle]
    exact runEvents_repair_digest hmode rfl rfl
  · -- no answer comes, and the timer fires
    have hgo : c.advance n H (.go 0 []) = (n, c, []) := by
      unfold ReadCall.advance
      simp only [hstage, hbest, hid, if_false]
    have htimeout : c.advance n H .timeout = (n, { c with stage := .repair }, []) := by
      unfold ReadCall.advance
      simp only [hstage, hbest, hid, if_false]
    rw [if_neg hid, runEvents_cons, hgo, runEvents_cons, htimeout]
    exact runEvents_repair_digest hmode rfl hbest

/-- **The last sections of a read** return its outcome. -/
theorem runEvents_last (hstage : c.stage = .await) (hlocal : c.localEntry = n.store.getRaw c.key) :
    (ReadCall.runEvents H (n, c) lastEvents).2.result =
      some (outcome n.qConfig.R n.repairMode n.id c.localEntry c.remoteResps) := by
  have htimeout : c.advance n H .timeout = c.leaveLoop n := by
    unfold ReadCall.advance
    rw [hstage]
  rw [lastEvents, runEvents_cons, htimeout]
  dsimp only [ReadCall.leaveLoop, outcome]
  split_ifs with hquorum
  · rw [runEvents_done rfl]
    rfl
  have hresponses : c.responses =
      c.localEntry.toList ++ c.remoteResps.filterMap ReadResp.entry := rfl
  rw [← hresponses]
  cases hnewest : newest c.responses with
  | none =>
    dsimp only
    rw [runEvents_done rfl]
    rfl
  | some best =>
    dsimp only
    unfold fetched
    by_cases hfetch : n.repairMode = .digest ∧ best.value = default ∧ best.tombstone = false
    · obtain ⟨hmode, hvalue, htomb⟩ := hfetch
      rw [if_pos ⟨hmode, hvalue, htomb⟩, runEvents_fetch hmode rfl rfl]
      simp only [hmode, hvalue, htomb, true_and, hlocal]
    · rw [if_neg hfetch, runEvents_repair rfl rfl]
      rw [if_neg fun h => hfetch ⟨h.1, h.2.1, h.2.2.1⟩]

end last

/-! ### The responses -/

/-- What a node answers to a request, as the coordinator sees it. -/
def LeaderlessNode.response (n : LeaderlessNode I K V) (key : K) (digest : Bool) :
    ReadResp I K V :=
  match n.store.getRaw key with
  | none => ⟨n.id, none, none⟩
  | some e => if digest then ⟨n.id, some (metadata e), some (entryHash e)⟩ else ⟨n.id, some e, none⟩

/-- The reply of a node carries its response. -/
lemma readReply_eq (n : LeaderlessNode I K V) (sender : I) (q : ℕ) (key : K) (digest : Bool) :
    n.readReply sender q key digest = .syncAck n.id sender q key (n.response key digest).entry
      (n.response key digest).hash ∧ (n.response key digest).senderID = n.id := by
  unfold LeaderlessNode.readReply LeaderlessNode.response
  cases n.store.getRaw key with
  | none => exact ⟨rfl, rfl⟩
  | some => cases digest <;> exact ⟨rfl, rfl⟩

section asking

variable {s₀ : Cluster I K V} {digest : Bool}

/-- The requests of a read to some nodes. -/
def ReadCall.requests (c : ReadCall I K V) (digest : Bool) (rest : List I) :
    List (Message I K V) :=
  rest.map fun t => .clientRead c.node t c.seqNo c.key digest

/-- A read waits for responses; the requests to `rest` are on their way, and no store has changed
since `s₀`. -/
structure Asking (s₀ s : Cluster I K V) (digest : Bool) (c : ReadCall I K V) (rest : List I) :
    Prop where
  calls : s.calls = [.read c]
  network : s.network = c.requests digest rest
  stage : c.stage = .await
  chan : ∃ ch, (s.nodes c.node).readResps c.seqNo = some ch ∧ ch.buf = [] ∧ 0 < ch.cap
  needed : min c.remoteNeeded c.targets.length = (c.remoteResps.length + rest.length : ℕ)
  same : ∀ m, (s.nodes m).config = (s₀.nodes m).config ∧ (s.nodes m).state = (s₀.nodes m).state ∧
    (s.nodes m).store = (s₀.nodes m).store

section

variable (h : Asking s₀ s digest c rest)

include h

/-- A node answers with what it stored at first. -/
lemma Asking.response (r : I) :
    (s.nodes r).response c.key digest = (s₀.nodes r).response c.key digest := by
  obtain ⟨hconfig, -, hstore⟩ := h.same r
  have hid : (s.nodes r).id = (s₀.nodes r).id := congrArg Config.id hconfig
  unfold LeaderlessNode.response
  rw [hstore, hid]

/-- A node gets its request and replies. -/
lemma Asking.deliver (hr : r ∈ rest) (hup : (s₀.nodes r).state.isPaused = false) :
    s.step H (.deliver (rest.idxOf r) 0) =
      ⟨s.nodes, s.calls, c.requests digest (rest.erase r) ++
        [(s.nodes r).readReply c.node c.seqNo c.key digest]⟩ := by
  have hup' : (s.nodes r).state.isPaused = false := by
    rw [(h.same r).2.1]
    exact hup
  have hget : (c.requests digest rest)[rest.idxOf r]? =
      some (.clientRead c.node r c.seqNo c.key digest) := by
    rw [ReadCall.requests, getElem?_map, getElem?_idxOf hr]
    rfl
  have herase : (c.requests digest rest).eraseIdx (rest.idxOf r) =
      c.requests digest (rest.erase r) := by
    unfold ReadCall.requests
    rw [erase_eq_eraseIdx_of_idxOf rfl, eraseIdx_map]
  simp only [Cluster.step, h.network, hget, Message.target, LeaderlessNode.handleMessage, hup',
    Bool.false_eq_true, if_false, update_eq_self, herase]

/-- The reply arrives at the coordinator. -/
lemma Asking.deliverAnswer (hr : r ∈ rest) (hup : (s₀.nodes r).state.isPaused = false)
    (hself : (s₀.nodes c.node).state.isPaused = false) :
    (s.step H (.deliver (rest.idxOf r) 0)).step H (.deliver (rest.length - 1) 0) =
      ⟨update s.nodes c.node
          ((s.nodes c.node).pushResp c.seqNo ((s₀.nodes r).response c.key digest)),
        s.calls, c.requests digest (rest.erase r)⟩ := by
  have hself' : (s.nodes c.node).state.isPaused = false := by
    rw [(h.same c.node).2.1]
    exact hself
  obtain ⟨hreply, hsender⟩ := readReply_eq (s.nodes r) c.node c.seqNo c.key digest
  have hresp : ((s.nodes r).response c.key digest) =
      ⟨(s.nodes r).id, ((s.nodes r).response c.key digest).entry,
        ((s.nodes r).response c.key digest).hash⟩ := by
    rw [← hsender]
  have hlen : (c.requests digest (rest.erase r)).length = rest.length - 1 := by
    rw [ReadCall.requests, length_map, length_erase_of_mem hr]
  rw [h.deliver hr hup, hreply, ← h.response r]
  generalize c.requests digest (rest.erase r) = l at hlen ⊢
  rw [← hlen]
  simp only [Cluster.step, getElem?_concat_length, Message.target, LeaderlessNode.handleMessage,
    hself', Bool.false_eq_true, if_false, eraseIdx_append_of_length_le (le_refl l.length),
    Nat.sub_self, eraseIdx_cons_zero, append_nil, ← hresp]

/-- The response can be taken. -/
lemma Asking.pop (resp : ReadResp I K V) :
    ∃ n', ((s.nodes c.node).pushResp c.seqNo resp).popResp c.seqNo = some (resp, n') ∧
      n'.config = (s.nodes c.node).config ∧ n'.state = (s.nodes c.node).state ∧
      n'.store = (s.nodes c.node).store ∧
      ∃ ch, n'.readResps c.seqNo = some ch ∧ ch.buf = [] ∧ 0 < ch.cap := by
  obtain ⟨ch, hch, hbuf, hcap⟩ := h.chan
  exact ⟨_, popResp_pushResp hch hbuf hcap resp, rfl, rfl, rfl, ⟨ch.cap, []⟩,
    update_self _ _ _, rfl, hcap⟩

/-- **The coordinator hears a node.** -/
theorem Asking.hear (hr : r ∈ rest) (hup : (s₀.nodes r).state.isPaused = false)
    (hself : (s₀.nodes c.node).state.isPaused = false) :
    Asking s₀ (run (Cluster.step H) s
        [.deliver (rest.idxOf r) 0, .deliver (rest.length - 1) 0, .advance 0 (.go 0 [])]) digest
      { c with remoteResps := c.remoteResps ++ [(s₀.nodes r).response c.key digest] }
      (rest.erase r) := by
  obtain ⟨n', hpop, hconfig, hstate, hstore, hchan⟩ :=
    h.pop ((s₀.nodes r).response c.key digest)
  have hpos := length_pos_of_mem hr
  have hlen := length_erase_of_mem hr
  have hwaits : ¬ min c.remoteNeeded c.targets.length ≤ (c.remoteResps.length : ℤ) := by
    rw [h.needed]
    omega
  have hadvance : c.advance ((s.nodes c.node).pushResp c.seqNo
      ((s₀.nodes r).response c.key digest)) H (.go 0 []) =
        (n', { c with remoteResps := c.remoteResps ++ [(s₀.nodes r).response c.key digest] },
          []) := by
    unfold ReadCall.advance
    simp only [h.stage, hwaits, hpop, if_false]
  have hrun : run (Cluster.step H) s
      [.deliver (rest.idxOf r) 0, .deliver (rest.length - 1) 0, .advance 0 (.go 0 [])] =
        ((s.step H (.deliver (rest.idxOf r) 0)).step H (.deliver (rest.length - 1) 0)).step H
          (.advance 0 (.go 0 [])) := rfl
  rw [hrun, h.deliverAnswer hr hup hself]
  simp only [Cluster.step, h.calls, getElem?_cons_zero, update_self,
    update_idem, hadvance, set_cons_zero, append_nil]
  refine ⟨rfl, rfl, h.stage, ?_, ?_, (forall_update_iff s.nodes fun m node =>
    node.config = (s₀.nodes m).config ∧ node.state = (s₀.nodes m).state ∧
      node.store = (s₀.nodes m).store).mpr ⟨?_, fun m _ => h.same m⟩⟩
  · dsimp only
    rw [update_self]
    exact hchan
  · dsimp only
    rw [h.needed, length_append, length_singleton, hlen]
    omega
  · rw [hconfig, hstate, hstore]
    exact h.same c.node

/-- **The coordinator hears some of the nodes**, in the order in which they answer. -/
theorem Asking.answers {responders : List I} (hsub : responders.Subperm rest)
    (hup : ∀ r ∈ responders, (s₀.nodes r).state.isPaused = false)
    (hself : (s₀.nodes c.node).state.isPaused = false) :
    Asking s₀ (run (Cluster.step H) s (Leaderless.answers rest responders)) digest
      { c with remoteResps :=
        c.remoteResps ++ responders.map fun r => (s₀.nodes r).response c.key digest }
      (rest.diff responders) := by
  induction responders generalizing s c rest with
  | nil =>
    rw [map_nil, append_nil]
    exact h
  | cons r responders ih =>
    have hr : r ∈ rest := hsub.subset mem_cons_self
    have hsub' : responders.Subperm (rest.erase r) := by
      have herase := hsub.erase r
      rwa [erase_cons_head] at herase
    have hnext := ih (h.hear (H := H) hr (hup r mem_cons_self) hself) hsub'
      (fun x hx => hup x (mem_cons_of_mem r hx)) hself
    dsimp only at hnext
    rw [append_assoc, singleton_append] at hnext
    rw [diff_cons]
    exact hnext

end

/-- No more nodes are asked than needed. -/
lemma length_le_of_readTargets {n : LeaderlessNode I K V} {count : ℤ}
    (h : n.readTargets H key count targets = true) : (targets.length : ℤ) ≤ count := by
  dsimp only [LeaderlessNode.readTargets] at h
  split_ifs at h with hlen
  · rw [of_decide_eq_true h]
    exact hlen
  · exact (of_decide_eq_true h).1.le

section

variable {n : I} (hcalls : s.calls = []) (hnet : s.network = []) (hid : (s.nodes n).id = n)
  (hup : (s.nodes n).state.isPaused = false) (htargets : (s.nodes n).readTargets H key
    (max 0 ((s.nodes n).qConfig.R - if ((s.nodes n).store.getRaw key).isSome then 1 else 0))
    targets = true)

include hcalls hnet hid hup htargets

/-- A read starts and sends its requests. -/
lemma asking_start : ∃ c, Asking s (run (Cluster.step H) s
        [.read n key, .advance 0 (.go 0 []), .advance 0 (.go 0 targets)])
        (decide ((s.nodes n).repairMode = .digest)) c targets ∧
      c.node = n ∧ c.key = key ∧ c.localEntry = (s.nodes n).store.getRaw key ∧
      c.remoteResps = [] := by
  have hlen := length_le_of_readTargets htargets
  simp only [run_cons, run_nil, Cluster.step, hcalls, hup, hnet, hid, htargets, ReadCall.start,
    ReadCall.advance, nil_append, getElem?_cons_zero, set_cons_zero,
    update_eq_self, Bool.false_eq_true, Bool.true_eq_false, if_false]
  refine ⟨_, ⟨rfl, rfl, rfl, ?_, ?_, (forall_update_iff s.nodes fun m node =>
    node.config = (s.nodes m).config ∧ node.state = (s.nodes m).state ∧
      node.store = (s.nodes m).store).mpr ⟨⟨?_, rfl, rfl⟩, fun _ _ => ⟨rfl, rfl, rfl⟩⟩⟩,
    rfl, rfl, rfl, rfl⟩
  · dsimp only
    rw [update_self]
    exact ⟨_, update_self _ _ _, rfl, Nat.succ_pos _⟩
  · dsimp only
    rw [length_nil, Nat.zero_add]
    exact min_eq_right hlen
  · unfold LeaderlessNode.config
    rw [hid]

/-- **What a read returns**: the outcome for the answers of the nodes that it heard. -/
theorem result_readRun {responders : List I}
    (hresp : ∀ r ∈ responders, (s.nodes r).state.isPaused = false)
    (hsub : responders.Subperm targets) :
    (run (Cluster.step H) s (readRun n key targets responders)).firstReply =
      some (outcome (s.nodes n).qConfig.R (s.nodes n).repairMode n ((s.nodes n).store.getRaw key)
        (responders.map fun r =>
          (s.nodes r).response key (decide ((s.nodes n).repairMode = .digest)))).reply := by
  obtain ⟨c, hstart, rfl, rfl, hlocal, hnone⟩ := asking_start hcalls hnet hid hup htargets
  have hask := hstart.answers (H := H) hsub hresp hup
  rw [hnone, nil_append] at hask
  have hrun : run (Cluster.step H) s (readRun c.node c.key targets responders) =
      run (Cluster.step H) (run (Cluster.step H) (run (Cluster.step H) s
        [.read c.node c.key, .advance 0 (.go 0 []), .advance 0 (.go 0 targets)])
        (Leaderless.answers targets responders)) (lastEvents.map (.advance 0)) := by
    rw [readRun, run_append, run_append]
  rw [hrun]
  generalize run (Cluster.step H) (run (Cluster.step H) s
    [.read c.node c.key, .advance 0 (.go 0 []), .advance 0 (.go 0 targets)])
    (Leaderless.answers targets responders) = s' at hask
  -- settings and store of the coordinator are those of before
  obtain ⟨hconfig, -, hstore⟩ := hask.same c.node
  have hq : (s'.nodes c.node).qConfig = (s.nodes c.node).qConfig :=
    congrArg Config.qConfig hconfig
  have hmode : (s'.nodes c.node).repairMode = (s.nodes c.node).repairMode :=
    congrArg Config.repairMode hconfig
  have hid' : (s'.nodes c.node).id = c.node := (congrArg Config.id hconfig).trans hid
  have hresult := runEvents_last (H := H) (n := s'.nodes c.node) hask.stage
    (hlocal.trans (by rw [hstore]))
  unfold Cluster.firstReply
  rw [calls_run_advances lastEvents hask.calls]
  dsimp only at hresult ⊢
  rw [hresult, hq, hmode, hid', hlocal]
  rfl

end

end asking

/-! ### The two modes -/

/-- What nodes have under a key. -/
def Cluster.versionsAt (s : Cluster I K V) (key : K) (responders : List I) :
    List (KVEntry I K V) :=
  responders.filterMap fun r => (s.nodes r).store.getRaw key

/-- Responders show their versions, or the metadata of them. -/
lemma entries_responses (s : Cluster I K V) (key : K) (responders : List I) (digest : Bool) :
    (responders.map fun r => (s.nodes r).response key digest).filterMap ReadResp.entry =
      (s.versionsAt key responders).map (if digest then metadata else id) := by
  unfold Cluster.versionsAt
  rw [filterMap_map, map_filterMap]
  refine filterMap_congr fun r _ => ?_
  unfold LeaderlessNode.response
  simp only [Function.comp_apply]
  cases (s.nodes r).store.getRaw key with
  | none => rfl
  | some => cases digest <;> rfl

/-- If the first of the newest versions of other nodes beats the coordinator's own, it is a
tombstone, or it has nothing that its metadata lacks and the coordinator does not find another
version where it looks for the value. -/
def DigestExact (n : I) (stored : Option (KVEntry I K V)) (versions : List (KVEntry I K V)) :
    Prop :=
  ∀ before e after, versions = before ++ e :: after → (∀ x ∈ before, x.stamp < e.stamp) →
    (∀ x ∈ after, x.stamp ≤ e.stamp) → (∀ x, stored = some x → x.stamp < e.stamp) →
    e.tombstone = true ∨ metadata e = e ∧ (e.nodeID = n → stored = none)

lemma stamp_metadata (e : KVEntry I K V) : (metadata e).stamp = e.stamp := rfl

/-- The coordinator's own version is beaten only by a newer one. -/
lemma newest_append (stored : Option (KVEntry I K V)) (versions : List (KVEntry I K V)) :
    newest (stored.toList ++ versions) =
      match stored, versions.argmax KVEntry.stamp with
      | none, o => o
      | some x, none => some x
      | some x, some e => if x.stamp < e.stamp then some e else some x := by
  rw [newest_eq_argmax]
  cases stored with
  | none => rfl
  | some =>
    rw [Option.toList_some, singleton_append, argmax_cons]
    cases versions.argmax KVEntry.stamp <;> rfl

/-- The condition, for the newest version of the others. -/
lemma digestExact_iff {n : I} {stored : Option (KVEntry I K V)}
    {versions : List (KVEntry I K V)} {e : KVEntry I K V}
    (he : versions.argmax KVEntry.stamp = some e) :
    DigestExact n stored versions ↔ ((∀ x, stored = some x → x.stamp < e.stamp) →
      e.tombstone = true ∨ metadata e = e ∧ (e.nodeID = n → stored = none)) := by
  constructor
  · intro h
    obtain ⟨before, after, hsplit, hbefore, hafter⟩ := argmax_eq_some_iff_split.mp he
    exact h before e after hsplit hbefore hafter
  · intro h before e' after hsplit hbefore hafter
    have he' := argmax_eq_some_iff_split.mpr ⟨before, after, hsplit, hbefore, hafter⟩
    rw [he] at he'
    cases he'
    exact h

lemma digestExact_nil (n : I) (stored : Option (KVEntry I K V)) : DigestExact n stored [] := by
  intro before e after hsplit
  exact absurd hsplit.symm (by simp)

/-- The coordinator finds its own version in its store. -/
lemma fetched_self (mode : ReadRepairMode) (n : I) (x : KVEntry I K V) :
    fetched mode n (some x) x = x := by
  unfold fetched
  split_ifs <;> rfl

/-- Nothing is fetched in other modes. -/
lemma fetched_of_ne {mode : ReadRepairMode} (hmode : mode ≠ .digest) (n : I)
    (stored : Option (KVEntry I K V)) (best : KVEntry I K V) : fetched mode n stored best = best :=
  if_neg fun h => hmode h.1

/-- **The answer to a version of another node** in digest mode. -/
theorem reply_metadata_iff {n : I} {stored : Option (KVEntry I K V)} {e : KVEntry I K V}
    (hbeats : ∀ x, stored = some x → x.stamp < e.stamp) :
    (ReadCall.answer (fetched .digest n stored (metadata e))).reply = (ReadCall.answer e).reply ↔
      e.tombstone = true ∨ metadata e = e ∧ (e.nodeID = n → stored = none) := by
  have hmeta : (metadata e).tombstone = e.tombstone ∧ (metadata e).nodeID = e.nodeID ∧
      (metadata e).value = default := ⟨rfl, rfl, rfl⟩
  cases htomb : e.tombstone with
  | true =>
    have hfetched : fetched .digest n stored (metadata e) = metadata e := by
      unfold fetched
      rw [if_neg]
      rintro ⟨-, -, hfalse, -⟩
      simp [hmeta.1, htomb] at hfalse
    rw [hfetched]
    simp [ReadCall.answer, hmeta.1, htomb, ReadResult.reply]
  | false =>
    have hok : (ReadCall.answer e).reply = .ok e := by
      simp [ReadCall.answer, htomb, ReadResult.reply]
    have hmetaok : (ReadCall.answer (metadata e)).reply = .ok (metadata e) := by
      simp [ReadCall.answer, hmeta.1, htomb, ReadResult.reply]
    rw [hok]
    by_cases hid : e.nodeID = n
    · -- the coordinator looks into its own store
      have hfetched : fetched .digest n stored (metadata e) = stored.getD (metadata e) :=
        if_pos ⟨rfl, rfl, hmeta.1.trans htomb, hid⟩
      rw [hfetched]
      cases stored with
      | none =>
        rw [Option.getD_none, hmetaok]
        simp
      | some x =>
        have hne : x ≠ e := fun heq => absurd (hbeats x rfl) (by rw [heq]; exact lt_irrefl _)
        rw [Option.getD_some]
        refine iff_of_false (fun heq => ?_) (by simp [hid])
        unfold ReadCall.answer at heq
        split_ifs at heq
        · cases heq
        · exact hne (Except.ok.inj heq)
    · have hfetched : fetched .digest n stored (metadata e) = metadata e :=
        if_neg fun h => hid h.2.2.2
      rw [hfetched, hmetaok]
      simp [hid]

/-- **The outcomes of a read in two modes.** -/
theorem outcome_digest_iff {mode : ReadRepairMode} (hmode : mode ≠ .digest) (q : ℤ) (n : I)
    (stored : Option (KVEntry I K V)) {versions : List (KVEntry I K V)}
    {resps resps' : List (ReadResp I K V)} (hlen : resps'.length = resps.length)
    (hfull : resps.filterMap ReadResp.entry = versions)
    (hmeta : resps'.filterMap ReadResp.entry = versions.map metadata) :
    (outcome q .digest n stored resps').reply = (outcome q mode n stored resps).reply ↔
      (q ≤ (1 + resps.length : ℕ) → DigestExact n stored versions) := by
  unfold outcome
  rw [hlen, hfull, hmeta, newest_append, newest_append, argmax_map stamp_metadata]
  by_cases hq : ((1 + resps.length : ℕ) : ℤ) < q
  · rw [if_pos hq, if_pos hq]
    exact iff_of_true rfl fun h => absurd h (not_le.mpr hq)
  rw [if_neg hq, if_neg hq]
  simp only [not_lt.mp hq, true_imp_iff]
  cases he : versions.argmax KVEntry.stamp with
  | none =>
    rw [argmax_eq_none] at he
    rw [he]
    refine iff_of_true ?_ (digestExact_nil n stored)
    cases stored with
    | none => rfl
    | some => simp only [Option.map_none, fetched_self]
  | some e =>
    rw [digestExact_iff he]
    cases stored with
    | none =>
      have hbeats : ∀ x : KVEntry I K V, none = some x → x.stamp < e.stamp := fun x hx => by
        cases hx
      simp only [Option.map_some, fetched_of_ne hmode, reply_metadata_iff hbeats]
      exact ⟨fun h _ => h, fun h => h hbeats⟩
    | some x =>
      simp only [Option.map_some, stamp_metadata]
      by_cases hlt : x.stamp < e.stamp
      · have hbeats : ∀ y, some x = some y → y.stamp < e.stamp := by
          rintro y ⟨rfl⟩
          exact hlt
        simp only [hlt, if_true, fetched_of_ne hmode, reply_metadata_iff hbeats]
        exact ⟨fun h _ => h, fun h => h hbeats⟩
      · simp only [hlt, if_false, fetched_self]
        exact iff_of_true trivial fun h => absurd (h x rfl) hlt

/-- **Digest reads**: a read in digest mode answers as in another mode, with the same nodes asked
and the same nodes heard in the same order, iff it does not hear enough nodes or the newest version
is the coordinator's own, a tombstone, or has nothing that its metadata lacks. -/
theorem digest_read_iff (H : Hashing I K) (s : Cluster I K V) (hcalls : s.calls = [])
    (hnet : s.network = []) {n : I} {key : K} {targets responders : List I}
    (hid : (s.nodes n).id = n) (hup : (s.nodes n).state.isPaused = false)
    (hresp : ∀ r ∈ responders, (s.nodes r).state.isPaused = false)
    (htargets : (s.nodes n).readTargets H key
      (max 0 ((s.nodes n).qConfig.R - if ((s.nodes n).store.getRaw key).isSome then 1 else 0))
      targets = true)
    (hsub : responders.Subperm targets) {mode : ReadRepairMode} (hmode : mode ≠ .digest) :
    s.readReply H .digest n key targets responders = s.readReply H mode n key targets responders ↔
      ((s.nodes n).qConfig.R ≤ (1 + responders.length : ℕ) →
        DigestExact n ((s.nodes n).store.getRaw key) (s.versionsAt key responders)) := by
  -- another mode of the coordinator changes nothing that the read depends on
  have hnode : ∀ m, ((s.withMode n m).nodes n) = { s.nodes n with repairMode := m } := fun m =>
    update_self _ _ _
  have hsame : ∀ m r, ((s.withMode n m).nodes r).state = (s.nodes r).state ∧
      ((s.withMode n m).nodes r).store = (s.nodes r).store ∧
      ((s.withMode n m).nodes r).id = (s.nodes r).id := fun m =>
    (forall_update_iff s.nodes fun r node => node.state = (s.nodes r).state ∧
      node.store = (s.nodes r).store ∧ node.id = (s.nodes r).id).mpr
        ⟨⟨rfl, rfl, rfl⟩, fun _ _ => ⟨rfl, rfl, rfl⟩⟩
  have hresult : ∀ m, s.readReply H m n key targets responders =
      some (outcome (s.nodes n).qConfig.R m n ((s.nodes n).store.getRaw key)
        (responders.map fun r => (s.nodes r).response key (decide (m = .digest)))).reply := by
    intro m
    have hrun := result_readRun (H := H) (s := s.withMode n m) hcalls hnet
      ((hsame m n).2.2.trans hid) (by rw [(hsame m n).1]; exact hup)
      (by rw [hnode]; exact htargets) (fun r hr => by rw [(hsame m r).1]; exact hresp r hr) hsub
    have hresponse : ∀ r, ((s.withMode n m).nodes r).response key (decide (m = .digest)) =
        (s.nodes r).response key (decide (m = .digest)) := by
      intro r
      unfold LeaderlessNode.response
      rw [(hsame m r).2.1, (hsame m r).2.2]
    rw [hnode] at hrun
    simp only [hresponse] at hrun
    exact hrun
  rw [hresult, hresult, Option.some.injEq, decide_eq_true rfl, decide_eq_false hmode]
  have hlen : (responders.map fun r => (s.nodes r).response key true).length =
      (responders.map fun r => (s.nodes r).response key false).length := by
    rw [length_map, length_map]
  rw [outcome_digest_iff hmode _ n _ hlen (entries_responses s key responders false)
    ((entries_responses s key responders true).trans ?_), length_map]
  · rw [if_neg (by decide), map_id]
  · rw [if_pos rfl, if_neg (by decide), map_id]

/-- A version of the key, by the time and the node of its write. -/
private def versionAt (t : ℤ) (n : Bool) (value : ℕ) : KVEntry Bool Unit ℕ where
  key := ()
  value := value
  vclock := VectorClock.empty.increment n
  timestamp := t
  nodeID := n
  tombstone := false
  version := 0

/-- Two replicas with the given versions of the key. -/
private def holding (versions : Bool → Option (KVEntry Bool Unit ℕ)) (R : ℤ) :
    Cluster Bool Unit ℕ :=
  .init fun n =>
    { LeaderlessNode.configured alternatingTokens n
        { twoReplicas 1 with qConfig := ⟨2, 1, R⟩ } true with
      store := ⟨fun _ => versions n, 1⟩ }

/-- Both replicas have a version, and that of the coordinator is newer. -/
private def newerHere : Bool → Option (KVEntry Bool Unit ℕ)
  | false => some (versionAt 2 false 8)
  | true => some (versionAt 1 true 7)

/-- The newest version is the coordinator's own. -/
theorem digest_read_own :
    (holding newerHere 2).readReply alternatingTokens .digest false () [true] [true] =
      (holding newerHere 2).readReply alternatingTokens .async false () [true] [true] := by
  refine (digest_read_iff alternatingTokens (holding newerHere 2) rfl rfl rfl rfl
    (fun r _ => by cases r <;> rfl) (by decide +kernel) (List.Subperm.refl _) (by decide)).mpr
    fun _ before e after hsplit _ _ hbeats => ?_
  have hmem : e ∈ (holding newerHere 2).versionsAt () [true] := by
    rw [hsplit]
    exact mem_append_right _ mem_cons_self
  obtain rfl : e = versionAt 1 true 7 := mem_singleton.mp hmem
  exact absurd (hbeats (versionAt 2 false 8) rfl) (by decide)

/-- Only the other replica has a version. -/
private def onlyThere : Bool → Option (KVEntry Bool Unit ℕ)
  | false => none
  | true => some (versionAt 1 true 7)

/-- The coordinator has no copy: in digest mode the client gets an entry without its value. -/
theorem digest_read_empty :
    ((holding onlyThere 1).readReply alternatingTokens .digest false () [true] [true]).map
        (fun r => r.toOption.map KVEntry.value) = some (some default) ∧
      ((holding onlyThere 1).readReply alternatingTokens .async false () [true] [true]).map
        (fun r => r.toOption.map KVEntry.value) = some (some 7) := by
  decide +kernel

end Replication.Leaderless
