import Replication.TwoPC.Locks

/-!
# TwoPC · Serializability: the order of the decisions

A transaction that has been decided to commit holds its locks at every participant that has not been
told yet, so that the order of the decisions is a serial order, although participants see commits at
different times.
-/

set_option linter.unusedSectionVars false

namespace Replication.TwoPC

open Library Function List

variable {π τ K V : Type} [DecidableEq π] [DecidableEq τ] [DecidableEq K] {s s' : State π τ K V}
  {p : π} {t : Transaction π K V} {tx tx' : τ}

namespace State

/-- The writes of a transaction at a participant. -/
def writesAt (s : State π τ K V) (p : π) (tx : τ) : List (K × V) :=
  (s.txs tx).elim [] (·.writesAt p)

/-- The transaction has committed at the participant. -/
def applied (s : State π τ K V) (p : π) (tx : τ) : Bool :=
  (s.txs tx).elim false (·.stage.applied p)

/-- The transaction has been decided to commit. -/
def decided (s : State π τ K V) (tx : τ) : Bool := (s.txs tx).elim false (·.stage.decided)

/-- The writes that a transaction has committed at a participant. -/
def effect (s : State π τ K V) (p : π) (tx : τ) : List (K × V) :=
  if s.applied p tx then s.writesAt p tx else []

section setStage

variable {tx : τ} {t : Transaction π K V} {stage : Stage π K V}

/-- What is read from the transactions, after one of them has gone on. -/
lemma elim_setStage {α : Type} (d : α) (f : Transaction π K V → α) (tx' : τ) :
    ((s.setStage tx t stage).txs tx').elim d f =
      if tx' = tx then f { t with stage := stage } else (s.txs tx').elim d f := by
  unfold setStage
  dsimp only
  rw [update_apply]
  split_ifs <;> rfl

/-- Going on changes no writes. -/
lemma writesAt_setStage (htx : s.txs tx = some t) (p : π) (tx' : τ) :
    (s.setStage tx t stage).writesAt p tx' = s.writesAt p tx' := by
  refine (elim_setStage _ _ tx').trans ?_
  split_ifs with h
  · rw [h, writesAt, htx]
    rfl
  · rfl

/-- Where transactions have committed, after one has gone on. -/
lemma applied_setStage (p : π) (tx' : τ) : (s.setStage tx t stage).applied p tx' =
    if tx' = tx then stage.applied p else s.applied p tx' := elim_setStage _ _ tx'

/-- Which transactions are decided, after one has gone on. -/
lemma decided_setStage (tx' : τ) : (s.setStage tx t stage).decided tx' =
    if tx' = tx then stage.decided else s.decided tx' := elim_setStage _ _ tx'

section

variable (htx : s.txs tx = some t)

include htx

/-- The stage says where a transaction has committed. -/
lemma applied_of_txs (p : π) : s.applied p tx = t.stage.applied p := by
  unfold applied
  rw [htx]
  rfl

/-- The stage says whether it is decided. -/
lemma decided_of_txs : s.decided tx = t.stage.decided := by
  unfold decided
  rw [htx]
  rfl

/-- The writes of a transaction that has been started. -/
lemma writesAt_of_txs (p : π) : s.writesAt p tx = t.writesAt p := by
  unfold writesAt
  rw [htx]
  rfl

end

end setStage

end State

/-- The transactions decided to commit, in the order of the decisions, against the committed
data. -/
structure OrderInv (s : State π τ K V) (order : List τ) : Prop where
  nodup : order.Nodup
  /-- The order has exactly the transactions decided to commit. -/
  mem : ∀ tx, tx ∈ order ↔ s.decided tx = true
  /-- Where a transaction has not committed yet, those after it write other keys. -/
  disjoint : order.Pairwise fun i j => ∀ p, s.applied p i = false →
    DisjointKeys (s.writesAt p i) (s.writesAt p j)
  committed : ∀ p, (s.participants p).committed = serial (s.effect p) order

/-- The empty order. -/
lemma orderInv_new : OrderInv (State.new : State π τ K V) [] where
  nodup := nodup_nil
  mem tx := by simp [State.new, State.decided]
  disjoint := List.Pairwise.nil
  committed _ := rfl

namespace OrderInv

variable {order : List τ}

section

variable (h : OrderInv s order)

include h

/-- Only commits and decisions matter to the order. -/
lemma congr (hcommitted : ∀ p, (s'.participants p).committed = (s.participants p).committed)
    (hdecided : ∀ tx, s'.decided tx = s.decided tx)
    (hwrites : ∀ p, ∀ tx ∈ order, s'.writesAt p tx = s.writesAt p tx)
    (happlied : ∀ p tx, s'.applied p tx = s.applied p tx) : OrderInv s' order := by
  refine ⟨h.nodup, fun tx => ?_, ?_, fun p => ?_⟩
  · rw [hdecided]
    exact h.mem tx
  · refine h.disjoint.imp_of_mem fun {i j} hi hj hdisj p hp => ?_
    rw [hwrites p i hi, hwrites p j hj]
    exact hdisj p (happlied p i ▸ hp)
  · rw [hcommitted p, h.committed p]
    refine serial_congr fun tx htx => ?_
    unfold State.effect
    rw [hwrites p tx htx, happlied p tx]

/-- A transaction goes on without either. -/
lemma setStage {stage : Stage π K V} (htx : s.txs tx = some t)
    (happlied : ∀ p, stage.applied p = t.stage.applied p)
    (hdecided : stage.decided = t.stage.decided) : OrderInv (s.setStage tx t stage) order := by
  refine h.congr (fun _ => rfl) (fun tx' => ?_) (fun p tx' _ => State.writesAt_setStage htx p tx')
    fun p tx' => ?_
  · by_cases heq : tx' = tx
    · rw [State.decided_setStage, if_pos heq, heq, State.decided_of_txs htx, hdecided]
    · rw [State.decided_setStage, if_neg heq]
  · by_cases heq : tx' = tx
    · rw [State.applied_setStage, if_pos heq, heq, State.applied_of_txs htx, happlied]
    · rw [State.applied_setStage, if_neg heq]

/-- A participant changes, but not its data. -/
lemma setParticipant {q : Participant τ K V} (hq : q.committed = (s.participants p).committed) :
    OrderInv (s.setParticipant p q) order := by
  refine h.congr (fun p' => ?_) (fun _ => rfl) (fun _ _ _ => rfl) fun _ _ => rfl
  unfold State.setParticipant
  by_cases hp' : p' = p
  · subst hp'
    simpa using hq
  · simp [hp']

/-- A transaction that has not committed everywhere writes other keys than one that holds its
locks there. -/
lemma disjoint_of_held (hlock : LockInv s) {i : τ} (htx : s.txs tx = some t)
    (hheld : t.stage.held p = true) (hi : i ∈ order) (hne : i ≠ tx) (hp : s.applied p i = false) :
    DisjointKeys (s.writesAt p i) (s.writesAt p tx) := by
  intro w hw w' hw' hkey
  have hdecided := (h.mem i).mp hi
  obtain ⟨x, hx⟩ : ∃ x, s.txs i = some x := by
    cases hx : s.txs i with
    | none => simp [State.decided, hx] at hdecided
    | some x => exact ⟨x, rfl⟩
  rw [State.decided_of_txs hx] at hdecided
  rw [State.applied_of_txs hx] at hp
  rw [State.writesAt_of_txs hx] at hw
  rw [State.writesAt_of_txs htx] at hw'
  -- both own the key
  have howner := hlock.locked_of_held hx (Stage.held_of_decided hdecided hp) hw
  rw [hkey, hlock.locked_of_held htx hheld hw'] at howner
  exact hne (Option.some.inj howner).symm

/-- **A decision to commit** comes last: the locks of the transactions that have not committed
everywhere are in the way of no key that it writes. -/
theorem decision (hlock : LockInv s) {todo : List π} (htx : s.txs tx = some t)
    (hheld : ∀ p, t.stage.held p = true) (hdecided : t.stage.decided = false)
    (hperm : todo.Perm t.parts) : OrderInv (s.setStage tx t (.commit todo)) (order ++ [tx]) := by
  have hnot : tx ∉ order := by
    intro hmem
    rw [h.mem, State.decided_of_txs htx, hdecided] at hmem
    exact Bool.false_ne_true hmem
  have hne : ∀ i ∈ order, i ≠ tx := fun i hi heq => hnot (heq ▸ hi)
  refine ⟨?_, fun i => ?_, ?_, fun p => ?_⟩
  · exact nodup_append.mpr ⟨h.nodup, nodup_singleton tx, fun i hi j hj =>
      mem_singleton.mp hj ▸ hne i hi⟩
  · rw [mem_append, mem_singleton]
    rw [State.decided_setStage, h.mem]
    by_cases heq : i = tx
    · simp [heq, Stage.decided]
    · simp [heq]
  · refine pairwise_append.mpr ⟨?_, pairwise_singleton _ _, ?_⟩
    · refine h.disjoint.imp_of_mem fun {i j} hi hj hdisj p hp => ?_
      rw [State.applied_setStage, if_neg (hne i hi)] at hp
      rw [State.writesAt_setStage htx, State.writesAt_setStage htx]
      exact hdisj p hp
    · intro i hi j hj p hp
      obtain rfl := mem_singleton.mp hj
      rw [State.applied_setStage, if_neg (hne i hi)] at hp
      rw [State.writesAt_setStage htx, State.writesAt_setStage htx]
      exact h.disjoint_of_held hlock htx (hheld p) hi (hne i hi) hp
  · rw [serial_append_singleton]
    have hnil : (s.setStage tx t (.commit todo)).effect p tx = [] := by
      unfold State.effect
      rw [State.applied_setStage, if_pos rfl, State.writesAt_setStage htx,
        State.writesAt_of_txs htx]
      by_cases hp : p ∈ t.parts
      · simp [Stage.applied, hperm.mem_iff.mpr hp]
      · rw [Transaction.writesAt_of_notMem hp, ite_self]
    rw [hnil, writeAll_nil]
    refine (h.committed p).trans (serial_congr fun i hi => ?_)
    unfold State.effect
    rw [State.applied_setStage, if_neg (hne i hi), State.writesAt_setStage htx]

/-- **What a commit at a participant writes**, against the committed data there. -/
theorem committed_commit {ws : List (K × V)} (hmem : tx ∈ order)
    (hstaged : (s.participants p).staged tx = some ws) (hws : s.writesAt p tx = ws)
    (hnot : s.applied p tx = false) (hwrites : ∀ i, s'.writesAt p i = s.writesAt p i)
    (hself : s'.applied p tx = true) (hother : ∀ i, i ≠ tx → s'.applied p i = s.applied p i) :
    ((s.participants p).commit tx).committed = serial (s'.effect p) order := by
  have hnew : s'.effect p tx = ws := by
    unfold State.effect
    rw [hself, hwrites, hws, if_pos rfl]
  have hold : s.effect p tx = [] := by
    unfold State.effect
    rw [hnot, if_neg Bool.false_ne_true]
  have heffect : ∀ i, i ≠ tx → s'.effect p i = s.effect p i := by
    intro i hi
    unfold State.effect
    rw [hother i hi, hwrites]
  have hafter : order.Pairwise fun i j => i = tx →
      DisjointKeys (s'.effect p tx) (s.effect p j) := by
    refine h.disjoint.imp fun {i j} hdisj hi => ?_
    subst hi
    rw [hnew, ← hws]
    intro w hw w' hw'
    unfold State.effect at hw'
    split_ifs at hw'
    · exact hdisj p hnot w hw w' hw'
    · cases hw'
  rw [Participant.commit_committed hstaged, h.committed p,
    serial_update h.nodup hmem hold heffect hafter, hnew]

/-- **A commit at a participant** takes effect in the middle of the order. -/
theorem commit (hlock : LockInv s) {rest : List π} (htx : s.txs tx = some t)
    (hstage : t.stage = .commit (p :: rest)) :
    OrderInv ((s.setParticipant p ((s.participants p).commit tx)).setStage tx t (.commit rest))
      order := by
  have htx' : (s.setParticipant p ((s.participants p).commit tx)).txs tx = some t := htx
  obtain ⟨hnodup, hsub⟩ := (hlock.shape tx t htx).commit _ hstage
  have hnot : p ∉ rest := (nodup_cons.mp hnodup).1
  obtain ⟨⟨p₀, ws⟩, hmem, rfl⟩ := mem_map.mp (hsub mem_cons_self)
  have hstaged : (s.participants p₀).staged tx = some ws := by
    refine (hlock.serves p₀).staged tx t ws htx hmem ?_
    rw [hstage]
    exact decide_eq_true mem_cons_self
  have hws : s.writesAt p₀ tx = ws := by
    rw [State.writesAt_of_txs htx, Transaction.writesAt_of_mem (hlock.shape tx t htx).nodup hmem]
  have hmemOrder : tx ∈ order := by
    rw [h.mem, State.decided_of_txs htx, hstage]
    rfl
  generalize hs' : (s.setParticipant p₀ ((s.participants p₀).commit tx)).setStage tx t
    (.commit rest) = s'
  have hwrites : ∀ q i, s'.writesAt q i = s.writesAt q i := by
    intro q i
    rw [← hs', State.writesAt_setStage htx']
    rfl
  have happlied_ne : ∀ q i, i ≠ tx → s'.applied q i = s.applied q i := by
    intro q i hi
    rw [← hs', State.applied_setStage, if_neg hi]
    rfl
  have happlied : ∀ q, s'.applied q tx = decide (q ∉ rest) := by
    intro q
    rw [← hs', State.applied_setStage, if_pos rfl]
    rfl
  have happlied_old : ∀ q, s.applied q tx = decide (q ∉ p₀ :: rest) := by
    intro q
    rw [State.applied_of_txs htx, hstage]
    rfl
  refine ⟨h.nodup, fun i => ?_, ?_, fun q => ?_⟩
  · rw [h.mem, ← hs']
    by_cases hi : i = tx
    · rw [hi, State.decided_setStage, if_pos rfl, State.decided_of_txs htx, hstage]
      rfl
    · rw [State.decided_setStage, if_neg hi]
      rfl
  · refine h.disjoint.imp fun {i j} hdisj q hq => ?_
    rw [hwrites, hwrites]
    apply hdisj q
    by_cases hi : i = tx
    · rw [hi, happlied] at hq
      rw [hi, happlied_old]
      simp only [decide_eq_false_iff_not, not_not] at hq ⊢
      exact mem_cons_of_mem p₀ hq
    · rwa [happlied_ne q i hi] at hq
  · by_cases hq : q = p₀
    · subst hq
      have hdata : s'.participants q = (s.participants q).commit tx := by
        rw [← hs']
        exact update_self ..
      rw [hdata]
      refine h.committed_commit hmemOrder hstaged hws ?_ (hwrites q) ?_ (happlied_ne q)
      · rw [happlied_old]
        simp
      · rw [happlied]
        exact decide_eq_true hnot
    · have hdata : s'.participants q = s.participants q := by
        rw [← hs']
        exact update_of_ne hq _ _
      rw [hdata, h.committed q]
      refine serial_congr fun i _ => ?_
      unfold State.effect
      rw [hwrites]
      by_cases hi : i = tx
      · rw [hi, happlied, happlied_old]
        simp [hq]
      · rw [happlied_ne q i hi]

end

end OrderInv

/-- **One step keeps the order of the decisions.** -/
theorem orderInv_move (hmove : Move s s') (hlock : LockInv s) {order : List τ}
    (h : OrderInv s order) : ∃ order', OrderInv s' order' := by
  cases hmove with
  | idle => exact ⟨order, h⟩
  | votes => exact ⟨order, h.setParticipant rfl⟩
  | execute tx perParticipant hfresh =>
    have hnot : tx ∉ order := by
      intro hmem
      rw [h.mem] at hmem
      simp [State.decided, hfresh] at hmem
    refine ⟨order, h.congr (fun _ => rfl) (fun tx' => ?_) (fun p tx' htx' => ?_) fun p tx' => ?_⟩
    · unfold State.decided
      by_cases heq : tx' = tx
      · simp [heq, hfresh, Stage.decided]
      · simp [heq]
    · have heq : tx' ≠ tx := fun heq => hnot (heq ▸ htx')
      simp [State.writesAt, heq]
    · unfold State.applied
      by_cases heq : tx' = tx
      · simp [heq, hfresh, Stage.applied]
      · simp [heq]
  | prepare tx t p ws rest htx hstage =>
    refine ⟨order, OrderInv.setStage (h.setParticipant ?_) htx (fun q => ?_) ?_⟩
    · rfl
    · rw [hstage]
      rfl
    · rw [hstage]
      rfl
  | go tx t stage htx hquiet => exact ⟨order, h.setStage htx hquiet.applied hquiet.decided⟩
  | decide tx t todo htx hheld hdecided hperm =>
    exact ⟨order ++ [tx], h.decision hlock htx hheld hdecided hperm⟩
  | commit tx t p rest htx hstage => exact ⟨order, h.commit hlock htx hstage⟩
  | abort tx t p rest htx hstage =>
    refine ⟨order, OrderInv.setStage (h.setParticipant (Participant.abort_committed _ _)) htx
      (fun q => ?_) ?_⟩
    · rw [hstage]
      rfl
    · rw [hstage]
      rfl

/-- **Serializability.** Transactions with ids of their own, with their calls interleaved in any
way, participants that vote no or are down at any time, and crashes that are recovered with either
decision: when all transactions are finished, no key is locked, and the committed data of all
participants is that of one serial order of exactly the transactions that committed. -/
theorem twopc_serializable {as : List (Action π τ K V)}
    (h : Along State.step (fun s a => s.admissible a = true) State.new as)
    (hfinished : ∀ tx t, (run State.step State.new as).txs tx = some t →
      ∃ committed, t.stage = .finished committed) :
    (∀ p k, ((run State.step State.new as).participants p).locked k = none) ∧
      ∃ order : List τ, order.Nodup ∧
        (∀ tx, tx ∈ order ↔
          ∃ t, (run State.step State.new as).txs tx = some t ∧ t.stage = .finished true) ∧
        ∀ p, ((run State.step State.new as).participants p).committed =
          serial ((run State.step State.new as).writesAt p) order := by
  have hinv : LockInv (run State.step State.new as) ∧
      ∃ order, OrderInv (run State.step State.new as) order := by
    refine run_invariant (fun s => LockInv s ∧ ∃ order, OrderInv s order) ?_ h
      ⟨lockInv_new, [], orderInv_new⟩
    rintro s a hadm ⟨hlock, order, horder⟩
    have hmove := move_step hadm
    exact ⟨lockInv_move hmove hlock, orderInv_move hmove hlock horder⟩
  generalize run State.step State.new as = s at hfinished hinv
  obtain ⟨hlock, order, horder⟩ := hinv
  have hdecided : ∀ tx, s.decided tx = true ↔
      ∃ t, s.txs tx = some t ∧ t.stage = .finished true := by
    intro tx
    cases htx : s.txs tx with
    | none => simp [State.decided, htx]
    | some t =>
      obtain ⟨b, hb⟩ := hfinished tx t htx
      simp [State.decided, htx, hb, Stage.decided]
  refine ⟨fun p k => ?_, order, horder.nodup, fun tx => (horder.mem tx).trans (hdecided tx),
    fun p => ?_⟩
  · refine Option.eq_none_iff_forall_ne_some.mpr fun tx htx => ?_
    obtain ⟨ws, hstaged, -⟩ := ((hlock.serves p).locks k tx).mp htx
    obtain ⟨t, ht, -, hmay⟩ := (hlock.serves p).owner tx ws hstaged
    obtain ⟨b, hb⟩ := hfinished tx t ht
    rw [hb] at hmay
    exact Bool.false_ne_true hmay
  · rw [horder.committed p]
    refine serial_congr fun tx htx => ?_
    obtain ⟨t, ht, hstage⟩ := (hdecided tx).mp ((horder.mem tx).mp htx)
    unfold State.effect
    rw [State.applied_of_txs ht, hstage]
    rfl

/-- Two participants and two transactions: the first one crashes after its votes, the second one
finds a key locked and aborts, and the first one is recovered. -/
private def blocked : List (Action Bool Bool ℕ ℕ) :=
  [.execute false [(false, [(0, 10)]), (true, [(0, 11)])],
    .execute true [(true, [(0, 20)]), (false, [(1, 21)])],
    .advance false false, .advance false false, .advance true false, .advance false true,
    .advance true false, .advance true false, .advance true false,
    .recover false true [true, false], .advance false false, .advance false false,
    .advance false false]

theorem twopc_serializable_recovered :
    Along State.step (fun s a => s.admissible a = true) State.new blocked ∧
      (∀ p k, ((run State.step State.new blocked).participants p).locked k = none) ∧
      ∃ order : List Bool, order.Nodup ∧
        (∀ tx, tx ∈ order ↔
          ∃ t, (run State.step State.new blocked).txs tx = some t ∧ t.stage = .finished true) ∧
        ∀ p, ((run State.step State.new blocked).participants p).committed =
          serial ((run State.step State.new blocked).writesAt p) order := by
  have hadm : Along State.step (fun s a => s.admissible a = true) State.new blocked := by
    decide +kernel
  have hfinished : ∀ tx t, (run State.step State.new blocked).txs tx = some t →
      ∃ committed, t.stage = .finished committed := by
    intro tx t ht
    cases tx with
    | false =>
      have hdone : (run State.step State.new blocked).txs false =
          some ⟨[(false, [(0, 10)]), (true, [(0, 11)])], .finished true⟩ := rfl
      exact ⟨true, Option.some.inj (hdone.symm.trans ht) ▸ rfl⟩
    | true =>
      have hdone : (run State.step State.new blocked).txs true =
          some ⟨[(true, [(0, 20)]), (false, [(1, 21)])], .finished false⟩ := rfl
      exact ⟨false, Option.some.inj (hdone.symm.trans ht) ▸ rfl⟩
  exact ⟨hadm, twopc_serializable hadm hfinished⟩

end Replication.TwoPC
