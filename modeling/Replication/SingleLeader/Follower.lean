import Replication.Library.Reorder
import Replication.Library.Run
import Replication.Log.Represents
import Replication.Node.Base
import Replication.Storage.Store

/-!
# Single leader · Follower: replicating by the leader's indices

`internal/node/follower.go`. A follower buffers entries by the leader's log index and applies
those that follow the last applied one without a gap. Metrics, events and the merge of the hybrid
clock on apply are left out; nothing here reads them.
-/

set_option linter.unusedSectionVars false

namespace Replication.SingleLeader

open Storage Log Node Library List

/-- What a message of the single-leader protocol carries. Source: `message.go` `Message`. -/
inductive Body (I K V : Type) where
  | appendEntries (seqNo : ℕ) (entries : List (LogEntry I K V)) (ackIndex : ℕ)
  /-- `MsgAppendAck`; the index is the sequence number of the message acknowledged. -/
  | appendAck (ackIndex : ℕ)
  /-- `MsgSync`; the index is the first one to resend. -/
  | sync (ackIndex : ℕ)
  | readRepair (entry : Option (KVEntry I K V))

/-- A message on the fabric. Source: `message.go` `Message`. -/
structure Message (I K V : Type) where
  senderID : I
  targetID : I
  body : Body I K V

/-- A follower. Source: `follower.go` `FollowerNode`. -/
structure FollowerNode (I K V : Type) where
  id : I
  leaderID : I
  state : NodeState
  store : Store I K V
  log : ReplicationLog I K V
  /-- The highest contiguous leader index applied. -/
  applied : ℕ
  /-- Entries that arrived out of order, by leader index. -/
  pending : AList (fun _ : ℕ => LogEntry I K V)
  /-- The highest leader index known. -/
  leaderIndex : ℕ

variable {I K V : Type} [DecidableEq K]

namespace FollowerNode

/-- Source: `follower.go` `NewFollowerNode`. -/
def new (id leaderID : I) : FollowerNode I K V where
  id := id
  leaderID := leaderID
  state := .online
  store := .new
  log := .new
  applied := 0
  pending := ∅
  leaderIndex := 0

/-- Apply one entry to the log and the store. Source: `follower.go` `applyOne`. -/
def applyOne (n : FollowerNode I K V) (entry : LogEntry I K V) : FollowerNode I K V :=
  { n with
    log := (n.log.append entry).1.setCommitIndex entry.index
    store := n.store.set entry.toKV }

/-- One round of the first loop of `applyEntries`: buffer what is not applied yet. -/
def buffer (n : FollowerNode I K V) (entry : LogEntry I K V) : FollowerNode I K V :=
  if entry.index ≤ n.applied then n
  else { n with pending := n.pending.insert entry.index entry }

/-- The second loop of `applyEntries`, in at most `k` rounds: apply what is contiguous. -/
def applyRounds : ℕ → FollowerNode I K V → FollowerNode I K V
  | 0, n => n
  | k + 1, n =>
    match n.pending.lookup (n.applied + 1) with
    | none => n
    | some entry => applyRounds k
        { n.applyOne entry with
          pending := n.pending.erase (n.applied + 1), applied := n.applied + 1 }

/-- The state after both loops. Every round removes a buffered entry, so the rounds of the second
loop are at most as many as there are entries. -/
def absorb (n : FollowerNode I K V) (entries : List (LogEntry I K V)) : FollowerNode I K V :=
  let n' := entries.foldl buffer n
  applyRounds n'.pending.keys.length n'

/-- Source: `follower.go` `requestSync`. -/
def requestSync (n : FollowerNode I K V) (fromIndex : ℕ) : Message I K V :=
  ⟨n.id, n.leaderID, .sync fromIndex⟩

/-- Handle an AppendEntries message: buffer, apply, acknowledge the sequence number, and ask for
the missing entries if any are still buffered. Source: `follower.go` `applyEntries`. -/
def applyEntries (n : FollowerNode I K V) (seqNo : ℕ) (entries : List (LogEntry I K V))
    (ackIndex : ℕ) : FollowerNode I K V × List (Message I K V) :=
  let n' := n.absorb entries
  ({ n' with leaderIndex := if n'.leaderIndex < ackIndex then ackIndex else n'.leaderIndex },
    ⟨n.id, n.leaderID, .appendAck seqNo⟩ ::
      if n'.pending.keys.length > 0 then [n.requestSync (n'.applied + 1)] else [])

/-- Source: `follower.go` `HandleMessage`. -/
def handleMessage (n : FollowerNode I K V) (msg : Message I K V) :
    FollowerNode I K V × List (Message I K V) :=
  if n.state.isPaused then (n, [])
  else match msg.body with
    | .appendEntries seqNo entries ackIndex => n.applyEntries seqNo entries ackIndex
    | .readRepair (some entry) => ({ n with store := n.store.set entry }, [])
    | _ => (n, [])

end FollowerNode

/-- What a follower reacts to. -/
inductive FollowerInput (I K V : Type) where
  | receive (msg : Message I K V)
  /-- `ticker.C` in `runSyncLoop`. -/
  | syncTick
  | pause
  | resume

/-- One atomic step of a follower. Source: `follower.go` `HandleMessage`, `runSyncLoop`; `base.go`
`Pause`, `Resume`. -/
def FollowerNode.react (n : FollowerNode I K V) :
    FollowerInput I K V → FollowerNode I K V × List (Message I K V)
  | .receive msg => n.handleMessage msg
  | .syncTick => if n.state.isPaused then (n, []) else (n, [n.requestSync (n.applied + 1)])
  | .pause => ({ n with state := .paused }, [])
  | .resume => ({ n with state := .online }, [])

/-- What a reaction does: at most one of absorbing entries and repairing a key. -/
inductive FollowerNode.Reacts (n : FollowerNode I K V) :
    FollowerInput I K V → FollowerNode I K V → List (Message I K V) → Prop
  /-- It may change its state, and ask for the entries after the applied one. -/
  | idle (inp : FollowerInput I K V) (state : NodeState) (out : List (Message I K V))
      (hout : ∀ m ∈ out, m = n.requestSync (n.applied + 1)) :
      n.Reacts inp { n with state := state } out
  | absorb (a b : I) (q : ℕ) (es : List (LogEntry I K V)) (k leaderIndex : ℕ)
      (out : List (Message I K V)) (hup : n.state.isPaused = false)
      (hout : ∀ m ∈ out, m = ⟨n.id, n.leaderID, .appendAck q⟩ ∨
        m = n.requestSync ((n.absorb es).applied + 1)) :
      n.Reacts (.receive ⟨a, b, .appendEntries q es k⟩)
        { n.absorb es with leaderIndex := leaderIndex } out
  | repair (a b : I) (e : KVEntry I K V) :
      n.Reacts (.receive ⟨a, b, .readRepair (some e)⟩) { n with store := n.store.set e } []

/-- **Every step of a follower is one of the three.** -/
theorem reacts_react (n : FollowerNode I K V) (inp : FollowerInput I K V) :
    n.Reacts inp (n.react inp).1 (n.react inp).2 := by
  have hidle : ∀ inp, n.Reacts inp n [] := fun inp => .idle inp n.state [] nofun
  cases inp with
  | receive msg =>
    obtain ⟨a, b, body⟩ := msg
    dsimp only [FollowerNode.react, FollowerNode.handleMessage]
    split_ifs with hp
    · exact hidle _
    cases body with
    | appendEntries q es k =>
      refine .absorb a b q es k _ _ (by simpa using hp) fun m hm => ?_
      rcases mem_cons.mp hm with rfl | hm
      · exact .inl rfl
      · split_ifs at hm
        · exact .inr (mem_singleton.mp hm)
        · cases hm
    | appendAck | sync => exact hidle _
    | readRepair e =>
      cases e with
      | none => exact hidle _
      | some e => exact .repair a b e
  | syncTick =>
    dsimp only [FollowerNode.react]
    split_ifs
    · exact hidle _
    · exact .idle _ n.state _ fun m hm => mem_singleton.mp hm
  | pause => exact .idle _ .paused [] nofun
  | resume => exact .idle _ .online [] nofun

/-! ### The loops -/

namespace FollowerNode

variable (n : FollowerNode I K V)

/-- The log after entries have been applied in order. -/
def appendAll (l : ReplicationLog I K V) (entries : List (LogEntry I K V)) :
    ReplicationLog I K V :=
  entries.foldl (fun l e => (l.append e).1.setCommitIndex e.index) l

/-- **The second loop releases the buffer**: its rounds are those of `release`, and what is
released is applied in order. -/
theorem applyRounds_eq (k : ℕ) : applyRounds k n =
    { n with
      log := appendAll n.log (release k n.applied n.pending).1
      store := n.store.applyLog (release k n.applied n.pending).1
      applied := (release k n.applied n.pending).2.1
      pending := (release k n.applied n.pending).2.2 } := by
  fun_induction applyRounds k n with
  | case1 => rfl
  | case2 n k h =>
    simp only [release, h]
    rfl
  | case3 n k e h ih =>
    rw [ih]
    simp only [release, h]
    rfl

section buffer

variable {n} {entries : List (LogEntry I K V)}

/-- Buffering changes the buffer only. -/
lemma foldl_buffer_eq (n : FollowerNode I K V) (entries : List (LogEntry I K V)) :
    entries.foldl buffer n = { n with pending := (entries.foldl buffer n).pending } := by
  induction entries generalizing n with
  | nil => rfl
  | cons e es ih =>
    rw [foldl_cons, ih]
    unfold buffer
    split_ifs <;> rfl

/-- What the first loop leaves in the buffer: old entries, and carried ones under their own
index above the applied one. -/
lemma lookup_foldl_buffer {i : ℕ} {e : LogEntry I K V}
    (h : (entries.foldl buffer n).pending.lookup i = some e) :
    n.pending.lookup i = some e ∨ (e ∈ entries ∧ e.index = i ∧ n.applied < i) := by
  induction entries generalizing n with
  | nil => exact .inl h
  | cons e' es ih =>
    rw [foldl_cons] at h
    by_cases hle : e'.index ≤ n.applied
    · rw [buffer, if_pos hle] at h
      exact (ih h).imp_right fun ⟨hm, hrest⟩ => ⟨mem_cons_of_mem _ hm, hrest⟩
    rw [buffer, if_neg hle] at h
    rcases ih h with h' | ⟨hm, hrest⟩
    · by_cases hi : i = e'.index
      · subst hi
        rw [AList.lookup_insert, Option.some.injEq] at h'
        exact .inr ⟨h' ▸ mem_cons_self, congrArg LogEntry.index h'.symm, by omega⟩
      · rw [AList.lookup_insert_ne hi] at h'
        exact .inl h'
    · exact .inr ⟨mem_cons_of_mem _ hm, hrest⟩

/-- Above the applied index, an entry that is buffered or in the message is buffered then. -/
lemma mem_foldl_buffer {i : ℕ} (hi : n.applied < i)
    (h : i ∈ n.pending ∨ ∃ e ∈ entries, e.index = i) : i ∈ (entries.foldl buffer n).pending := by
  induction entries generalizing n with
  | nil => simpa using h
  | cons e' es ih =>
    rw [foldl_cons]
    by_cases hle : e'.index ≤ n.applied
    · rw [buffer, if_pos hle]
      refine ih hi (h.imp_right ?_)
      rintro ⟨e, he, rfl⟩
      rcases mem_cons.mp he with rfl | he
      · omega
      · exact ⟨e, he, rfl⟩
    · rw [buffer, if_neg hle]
      refine ih hi ?_
      rcases h with h | ⟨e, he, rfl⟩
      · exact .inl ((AList.mem_insert _).mpr (.inr h))
      · rcases mem_cons.mp he with rfl | he
        · exact .inl ((AList.mem_insert _).mpr (.inl rfl))
        · exact .inr ⟨e, he, rfl⟩

end buffer

end FollowerNode

/-! ### Following a leader log -/

/-- The follower holds the part of the leader log `L` up to its applied index, and buffers entries
of `L` from the one after the next on. -/
structure FollowsLog (L : List (LogEntry I K V)) (n : FollowerNode I K V) : Prop where
  applied_le : n.applied ≤ L.length
  log : Represents n.log (L.take n.applied)
  boundary : n.log.snapshotIndex = 0
  store : n.store.contents = stateOf (L.take n.applied)
  /-- The buffer holds entries of the leader log, and not the next one. -/
  pending : ∀ i e, n.pending.lookup i = some e → n.applied + 2 ≤ i ∧ entryAt L i = some e

section follows

variable {L : List (LogEntry I K V)} {n : FollowerNode I K V}

/-- A new follower follows any log. -/
lemma followsLog_new (id leaderID : I) : FollowsLog L (FollowerNode.new id leaderID) where
  applied_le := Nat.zero_le _
  log := represents_new
  boundary := rfl
  store := rfl
  pending i e h := by
    simp [FollowerNode.new, AList.lookup_empty] at h

/-- A follower of a log follows every extension of it. -/
lemma FollowsLog.mono {L' : List (LogEntry I K V)} (h : FollowsLog L n) (hL : L <+: L') :
    FollowsLog L' n := by
  have htake := take_prefix_eq hL h.applied_le
  refine ⟨h.applied_le.trans hL.length_le, htake ▸ h.log, h.boundary, htake ▸ h.store,
    fun i e hi => ?_⟩
  obtain ⟨hle, he⟩ := h.pending i e hi
  exact ⟨hle, (entryAt_prefix_eq hL (entryAt_bounds he).2).trans he⟩

/-- Entries with the next indices, applied in order, extend the list that the log stands for. -/
lemma represents_appendAll {l : ReplicationLog I K V} {ℓ es : List (LogEntry I K V)}
    (h : Represents l ℓ) (hs : l.snapshotIndex = 0)
    (hidx : ∀ i e, entryAt (ℓ ++ es) i = some e → e.index = i) :
    Represents (FollowerNode.appendAll l es) (ℓ ++ es) ∧
      (FollowerNode.appendAll l es).snapshotIndex = 0 := by
  induction es generalizing l ℓ with
  | nil =>
    rw [append_nil]
    exact ⟨h, hs⟩
  | cons e es ih =>
    have happ : ℓ ++ e :: es = ℓ ++ [e] ++ es := by
      rw [append_assoc]
      rfl
    -- the log gives the entry the index it has
    have he : e.index = ℓ.length + 1 := by
      refine hidx _ e ?_
      rw [happ, entryAt_prefix_eq (prefix_append _ es) (by simp)]
      exact entryAt_append_self ℓ e
    have h' := (h.append e).setCommitIndex e.index
    rw [← he] at h'
    rw [happ] at hidx ⊢
    exact ih h' ((setCommitIndex_snapshotIndex _ _).trans hs) hidx

/-- **Absorbing entries of the leader log keeps following it.** -/
theorem FollowsLog.absorb (h : FollowsLog L n) (hidx : ∀ i e, entryAt L i = some e → e.index = i)
    {entries : List (LogEntry I K V)} (hes : ∀ e ∈ entries, e ∈ L) :
    FollowsLog L (n.absorb entries) := by
  dsimp only [FollowerNode.absorb]
  rw [FollowerNode.applyRounds_eq, FollowerNode.foldl_buffer_eq]
  generalize hp : (entries.foldl FollowerNode.buffer n).pending = p
  -- the buffer holds entries of the leader log above the applied index
  have hbuf : ∀ i e, p.lookup i = some e → n.applied < i ∧ entryAt L i = some e := by
    intro i e he
    rw [← hp] at he
    rcases FollowerNode.lookup_foldl_buffer he with he | ⟨hm, rfl, hlt⟩
    · obtain ⟨hle, he⟩ := h.pending i e he
      exact ⟨by omega, he⟩
    · obtain ⟨j, hj⟩ := mem_iff_getElem?.mp (hes e hm)
      have := hidx (j + 1) e hj
      exact ⟨hlt, this ▸ hj⟩
  obtain ⟨htake, hle⟩ := take_release (k := p.keys.length) (a := n.applied)
    (fun i e he => (hbuf i e he).2) h.applied_le
  have hnext := lookup_next_release (a := n.applied) (le_refl p.keys.length)
  have hidx' : ∀ i e,
      entryAt (L.take n.applied ++ (release p.keys.length n.applied p).1) i = some e →
      e.index = i := by
    intro i e he
    rw [← htake] at he
    rw [entryAt_take ((entryAt_bounds he).2.trans (length_take_le _ _))] at he
    exact hidx i e he
  obtain ⟨hlog, hbound⟩ := represents_appendAll h.log h.boundary hidx'
  refine ⟨hle, ?_, hbound, ?_, fun i e he => ?_⟩
  · show Represents _ (L.take (release p.keys.length n.applied p).2.1)
    rw [htake]
    exact hlog
  · show (n.store.applyLog _).contents = stateOf (L.take (release p.keys.length n.applied p).2.1)
    rw [htake]
    exact contents_applyLog_stateOf h.store _
  · -- what is left lies above the new applied index, and is not the next entry
    replace he : (release p.keys.length n.applied p).2.2.lookup i = some e := he
    have hlt := lt_of_lookup_release he fun j e' he' => (hbuf j e' he').1
    have hne : i ≠ (release p.keys.length n.applied p).2.1 + 1 := by
      rintro rfl
      simp [hnext] at he
    rw [lookup_release hlt] at he
    refine ⟨?_, (hbuf i e he).2⟩
    show (release p.keys.length n.applied p).2.1 + 2 ≤ i
    omega

/-- The entries of a message are entries of `L`, and it is no read repair. -/
def Message.Copies (L : List (LogEntry I K V)) (m : Message I K V) : Prop :=
  match m.body with
  | .appendEntries _ entries _ => ∀ e ∈ entries, e ∈ L
  | .readRepair _ => False
  | _ => True

/-- The copies of a log are copies of a larger one. -/
lemma Message.Copies.mono {L L' : List (LogEntry I K V)} {m : Message I K V} (h : m.Copies L)
    (hL : ∀ e ∈ L, e ∈ L') : m.Copies L' := by
  unfold Message.Copies at h ⊢
  split at h
  · exact fun e he => hL e (h e he)
  · exact h
  · trivial

/-- A follower is sent entries of `L` only. -/
def FollowerInput.Copies (L : List (LogEntry I K V)) : FollowerInput I K V → Prop
  | .receive msg => msg.Copies L
  | _ => True

/-- **One step keeps following the leader log.** -/
theorem FollowsLog.react (h : FollowsLog L n) (hidx : ∀ i e, entryAt L i = some e → e.index = i)
    {inp : FollowerInput I K V} (hc : inp.Copies L) : FollowsLog L (n.react inp).1 := by
  have hr := reacts_react n inp
  generalize n.react inp = r at hr ⊢
  obtain ⟨n', out⟩ := r
  cases hr with
  | idle => exact ⟨h.applied_le, h.log, h.boundary, h.store, h.pending⟩
  | absorb =>
    have h' := h.absorb hidx hc
    exact ⟨h'.applied_le, h'.log, h'.boundary, h'.store, h'.pending⟩
  | repair => exact hc.elim

/-- A follower sends acknowledgements and catch-up requests from its applied index on. -/
lemma FollowerNode.Reacts.out {n' : FollowerNode I K V} {inp : FollowerInput I K V}
    {out : List (Message I K V)} (h : n.Reacts inp n' out) {m : Message I K V} (hm : m ∈ out) :
    (∃ q, m = ⟨n.id, n.leaderID, .appendAck q⟩) ∨ m = n.requestSync (n'.applied + 1) := by
  cases h with
  | idle _ state out hout => exact .inr (hout m hm)
  | absorb a b q es k leaderIndex out _ hout => exact (hout m hm).imp_left fun hm => ⟨q, hm⟩
  | repair => cases hm

/-- The id of a follower stays, and its applied index only grows. -/
lemma FollowerNode.Reacts.frame {n' : FollowerNode I K V} {inp : FollowerInput I K V}
    {out : List (Message I K V)} (h : n.Reacts inp n' out) :
    n'.id = n.id ∧ n.applied ≤ n'.applied := by
  cases h with
  | idle | repair => exact ⟨rfl, le_rfl⟩
  | absorb a b q es =>
    show (n.absorb es).id = n.id ∧ n.applied ≤ (n.absorb es).applied
    dsimp only [FollowerNode.absorb]
    rw [FollowerNode.applyRounds_eq, FollowerNode.foldl_buffer_eq]
    exact ⟨rfl, le_release _ _ _⟩

end follows

/-! ### The leader log -/

/-- A leader log: entries appended one after the other. Source: `log.go` `Append`. -/
def leaderLog (es : List (LogEntry I K V)) : ReplicationLog I K V :=
  es.foldl (fun l e => (l.append e).1) .new

/-- The log of the run stands for its entries. -/
lemma represents_leaderLog (es : List (LogEntry I K V)) :
    Represents (leaderLog es) (leaderLog es).entries ∧ (leaderLog es).snapshotIndex = 0 := by
  suffices h : ∀ l : ReplicationLog I K V, Represents l l.entries → l.snapshotIndex = 0 →
      Represents (es.foldl (fun l e => (l.append e).1) l)
        (es.foldl (fun l e => (l.append e).1) l).entries ∧
      (es.foldl (fun l e => (l.append e).1) l).snapshotIndex = 0 from
    h _ represents_new rfl
  induction es with
  | nil => exact fun l h hs => ⟨h, hs⟩
  | cons e es ih =>
    intro l h hs
    refine ih _ ?_ hs
    have h' := h.append e
    rwa [← h.next_eq] at h'

/-- The entries of the run carry their positions. -/
lemma leaderLog_index (es : List (LogEntry I K V)) :
    ∀ i e, entryAt (leaderLog es).entries i = some e → e.index = i :=
  (represents_leaderLog es).1.index_eq

/-- One atomic step of a follower, without the messages it sends. -/
def FollowerNode.step (n : FollowerNode I K V) (inp : FollowerInput I K V) : FollowerNode I K V :=
  (n.react inp).1

/-- **A follower holds a prefix of the leader log.** For every leader log and every sequence of
AppendEntries messages with copies of its entries, in any order, number and batching, the
follower's log is the part of the leader log up to `applied`, its store has the contents of
applying that part in order, and whatever is buffered has an index of at least `applied + 2`. -/
theorem follower_holds_prefix (es : List (LogEntry I K V)) (id leaderID : I)
    (inputs : List (FollowerInput I K V)) (h : ∀ inp ∈ inputs, inp.Copies (leaderLog es).entries) :
    (run FollowerNode.step (.new id leaderID) inputs).applied ≤ (leaderLog es).entries.length ∧
    (run FollowerNode.step (.new id leaderID) inputs).log.entries =
      (leaderLog es).entries.take (run FollowerNode.step (.new id leaderID) inputs).applied ∧
    (run FollowerNode.step (.new id leaderID) inputs).store.contents =
      stateOf ((leaderLog es).entries.take
        (run FollowerNode.step (.new id leaderID) inputs).applied) ∧
    ∀ i e, (run FollowerNode.step (.new id leaderID) inputs).pending.lookup i = some e →
      e.index = i ∧ (run FollowerNode.step (.new id leaderID) inputs).applied + 2 ≤ i := by
  have hidx := leaderLog_index es
  have hfollow : FollowsLog (leaderLog es).entries
      (run FollowerNode.step (.new id leaderID) inputs) :=
    run_invariant (FollowsLog (leaderLog es).entries) (fun _ _ hc hF => hF.react hidx hc)
      (along_of_forall h _) (followsLog_new id leaderID)
  refine ⟨hfollow.applied_le, ?_, hfollow.store, fun i e hi => ?_⟩
  · have := hfollow.log.entries_eq
    rwa [hfollow.boundary, drop_zero] at this
  · obtain ⟨hle, he⟩ := hfollow.pending i e hi
    exact ⟨hidx i e he, hle⟩

/-- A write of key `7`, to be given an index by the leader log. -/
def writeOf (value : ℕ) : LogEntry ℕ ℕ ℕ := ⟨0, 0, 7, value, .set, 0, 0, .empty⟩

/-- Entry `2` arrives before entry `1`, and entry `1` arrives twice. -/
def reordered : List (FollowerInput ℕ ℕ ℕ) :=
  [.receive ⟨0, 1, .appendEntries 2 [{ writeOf 20 with index := 2 }] 2⟩,
    .receive ⟨0, 1, .appendEntries 1 [{ writeOf 10 with index := 1 }] 1⟩,
    .receive ⟨0, 1, .appendEntries 1 [{ writeOf 10 with index := 1 }] 1⟩]

/-- The follower ends with the whole leader log. -/
theorem follower_holds_prefix_reordered :
    (run FollowerNode.step (.new 1 0) reordered).applied = 2 ∧
    (run FollowerNode.step (.new 1 0) reordered).log.entries =
      (leaderLog [writeOf 10, writeOf 20]).entries := by
  have h := follower_holds_prefix [writeOf 10, writeOf 20] 1 0 reordered (by
    simp [reordered, FollowerInput.Copies, Message.Copies, leaderLog, ReplicationLog.append,
      ReplicationLog.new])
  have happ : (run FollowerNode.step (.new 1 0) reordered).applied = 2 := by decide +kernel
  refine ⟨happ, h.2.1.trans ?_⟩
  rw [happ]
  rfl

end Replication.SingleLeader
