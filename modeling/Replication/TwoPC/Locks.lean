import Replication.Library.Run
import Replication.TwoPC.Transaction

/-!
# TwoPC · Locks: who holds which keys

Transactions whose prepare, commit and abort calls are interleaved in any way.

* `LockInv`, `lockInv_move` — locks belong to transactions that have staged the key.
-/

set_option linter.unusedSectionVars false

namespace Replication.TwoPC

open Library Function List

variable {π τ K V : Type} {p : π} {stage : Stage π K V} {t : Transaction π K V} {tx : τ}
  {ws : List (K × V)}

/-! ### Locks of a participant -/

section participant

variable [DecidableEq K]

namespace Participant

/-- Who holds a key after a transaction has taken its locks. -/
lemma lock_eq_some_iff {l : K → Option τ} {o : τ} {k : K} :
    lock l tx ws k = some o ↔
      o = tx ∧ (∃ w ∈ ws, w.1 = k) ∨ (∀ w ∈ ws, w.1 ≠ k) ∧ l k = some o := by
  unfold lock
  induction ws generalizing l with
  | nil => simp
  | cons w ws ih =>
    rw [foldl_cons, ih]
    by_cases hk : w.1 = k
    · subst hk
      simp only [update_self, Option.some.injEq, mem_cons, exists_eq_or_imp,
        true_or, and_true, forall_eq_or_imp, ne_eq, not_true_eq_false, false_and, or_false]
      refine ⟨fun h => h.elim (fun h => h.1) fun h => h.2.symm, fun h => ?_⟩
      by_cases hmem : ∃ w' ∈ ws, w'.1 = w.1
      · exact .inl ⟨h, hmem⟩
      · exact .inr ⟨fun w' hw' heq => hmem ⟨w', hw', heq⟩, h.symm⟩
    · simp [hk, update_of_ne (Ne.symm hk)]

variable [DecidableEq τ]

/-- Who holds a key after a transaction has released its locks. -/
lemma release_eq_some_iff {l : K → Option τ} {o : τ} {k : K} :
    release l tx ws k = some o ↔ l k = some o ∧ ((∀ w ∈ ws, w.1 ≠ k) ∨ o ≠ tx) := by
  unfold release
  induction ws generalizing l with
  | nil => simp
  | cons w ws ih =>
    have hone : releaseLocked l w.1 tx k = some o ↔ l k = some o ∧ (w.1 ≠ k ∨ o ≠ tx) := by
      unfold releaseLocked
      by_cases hk : w.1 = k
      · subst hk
        split_ifs with hl
        · simp only [update_self, hl, Option.some.injEq, reduceCtorEq, ne_eq,
            not_true_eq_false, false_or, false_iff, not_and, not_not]
          exact fun h => h.symm
        · simp only [ne_eq, not_true_eq_false, false_or, iff_self_and]
          exact fun h ho => hl (ho ▸ h)
      · split_ifs with hl
        · simp [hk, update_of_ne (Ne.symm hk)]
        · simp [hk]
    rw [foldl_cons, ih, hone, and_assoc]
    simp only [mem_cons, forall_eq_or_imp]
    exact and_congr_right fun _ => and_or_right.symm

section

variable (p : Participant τ K V) (tx : τ)

/-- A commit drops the staged writes. -/
lemma commit_staged : (p.commit tx).staged = update p.staged tx none := by
  unfold commit
  cases h : p.staged tx with
  | none => exact (h ▸ update_eq_self tx p.staged).symm
  | some => rfl

/-- So does an abort. -/
lemma abort_staged : (p.abort tx).staged = update p.staged tx none := by
  unfold abort
  cases h : p.staged tx with
  | none => exact (h ▸ update_eq_self tx p.staged).symm
  | some => rfl

/-- Both decisions release the same locks. -/
lemma commit_locked : (p.commit tx).locked = (p.abort tx).locked := by
  unfold commit abort
  cases p.staged tx <;> rfl

/-- An abort writes nothing. -/
lemma abort_committed : (p.abort tx).committed = p.committed := by
  unfold abort
  cases p.staged tx <;> rfl

end

/-- A commit writes what is staged. -/
lemma commit_committed {p : Participant τ K V} (h : p.staged tx = some ws) :
    (p.commit tx).committed = writeAll p.committed ws := by
  unfold commit
  rw [h]

/-- The locks are the keys of the staged writes. -/
def LocksStaged (p : Participant τ K V) : Prop :=
  ∀ k tx, p.locked k = some tx ↔ ∃ ws, p.staged tx = some ws ∧ ∃ w ∈ ws, w.1 = k

/-- **Preparing** keeps the locks those of the staged writes exactly if the keys that the
transaction has staged before are among the new ones. -/
theorem LocksStaged.prepare_iff {p : Participant τ K V} (h : p.LocksStaged)
    (hfree : ∀ w ∈ ws, ∀ owner, p.locked w.1 = some owner → owner = tx) :
    ({ p with
        staged := update p.staged tx (some ws)
        locked := lock p.locked tx ws } : Participant τ K V).LocksStaged ↔
      ∀ old ∈ p.staged tx, ∀ w ∈ old, ∃ w' ∈ ws, w'.1 = w.1 := by
  have hnew : ∀ k, lock p.locked tx ws k = some tx ↔
      (∃ w ∈ ws, w.1 = k) ∨ p.locked k = some tx := by
    intro k
    rw [lock_eq_some_iff]
    by_cases hk : ∃ w ∈ ws, w.1 = k
    · simp [hk]
    · rw [or_iff_right fun hnew => hk hnew.2, or_iff_right hk]
      exact and_iff_right fun w hw heq => hk ⟨w, hw, heq⟩
  constructor
  · intro hlocks old hold w hw
    have hlocked : p.locked w.1 = some tx := (h w.1 tx).mpr ⟨old, hold, w, hw, rfl⟩
    obtain ⟨ws', hws', hmem⟩ := (hlocks w.1 tx).mp ((hnew w.1).mpr (.inr hlocked))
    dsimp only at hws'
    rw [update_self] at hws'
    cases hws'
    exact hmem
  · intro hkeys k o
    dsimp only
    by_cases ho : o = tx
    · subst ho
      rw [hnew, update_self]
      refine ⟨fun hk => ⟨ws, rfl, hk.elim id fun hold => ?_⟩, ?_⟩
      · obtain ⟨old, hstaged, w, hw, rfl⟩ := (h k o).mp hold
        exact hkeys old hstaged w hw
      · rintro ⟨ws', hws', hmem⟩
        cases hws'
        exact .inl hmem
    · rw [lock_eq_some_iff, update_of_ne ho, ← h k o]
      refine ⟨fun hlock => (hlock.resolve_left fun hnew => ho hnew.1).2, fun hlock => ?_⟩
      refine .inr ⟨fun w hw heq => ho ?_, hlock⟩
      exact hfree w hw o (heq ▸ hlock)

/-- Preparing for the first time. -/
lemma LocksStaged.prepare {p : Participant τ K V} (h : p.LocksStaged) (hnone : p.staged tx = none)
    (hfree : ∀ w ∈ ws, ∀ owner, p.locked w.1 = some owner → owner = tx) :
    ({ p with
        staged := update p.staged tx (some ws)
        locked := lock p.locked tx ws } : Participant τ K V).LocksStaged := by
  refine (h.prepare_iff hfree).mpr fun old hold => ?_
  simp [hnone] at hold

/-- **Deciding** a transaction. -/
theorem LocksStaged.abort {p : Participant τ K V} (h : p.LocksStaged) (tx : τ) :
    (p.abort tx).LocksStaged := by
  intro k o
  rw [abort_staged]
  unfold Participant.abort
  cases hstaged : p.staged tx with
  | none =>
    dsimp only
    rw [h k o]
    by_cases ho : o = tx
    · subst ho
      simp [hstaged]
    · rw [update_of_ne ho]
  | some =>
    dsimp only
    rw [release_eq_some_iff, h k o]
    by_cases ho : o = tx
    · subst ho
      simp [hstaged]
    · simp [ho]

/-- A commit keeps the locks those of the staged writes. -/
lemma LocksStaged.commit {p : Participant τ K V} (h : p.LocksStaged) (tx : τ) :
    (p.commit tx).LocksStaged := by
  intro k o
  rw [commit_staged, commit_locked, ← abort_staged]
  exact h.abort tx k o

end Participant

end participant

/-! ### Stages -/

section stage

variable [DecidableEq π]

/-- The transaction holds its locks at the participant. -/
def Stage.held (p : π) : Stage π K V → Bool
  | .prepare todo => p ∉ todo.map Prod.fst
  | .commit todo => p ∈ todo
  | .abort _ => false
  | .crashed => true
  | .finished _ => false

/-- The transaction may hold locks at the participant. -/
def Stage.mayHold (p : π) : Stage π K V → Bool
  | .abort todo => p ∈ todo
  | stage => stage.held p

/-- The transaction has committed at the participant. -/
def Stage.applied (p : π) : Stage π K V → Bool
  | .commit todo => p ∉ todo
  | .finished committed => committed
  | _ => false

/-- The decision is to commit. -/
def Stage.decided : Stage π K V → Bool
  | .commit _ => true
  | .finished committed => committed
  | _ => false

/-- Until it has committed, a decided transaction holds its locks. -/
lemma Stage.held_of_decided (hdecided : stage.decided = true) (happlied : stage.applied p = false) :
    stage.held p = true := by
  cases stage with
  | commit => simpa [Stage.applied, Stage.held] using happlied
  | finished => exact absurd (hdecided.symm.trans happlied) (by decide)
  | _ => exact absurd hdecided Bool.false_ne_true

/-- A change of stage that takes no locks and makes no decision to commit. -/
structure Stage.Quiet (parts : List π) (stage stage' : Stage π K V) : Prop where
  held : ∀ p ∈ parts, stage'.held p = true → stage.held p = true
  mayHold : ∀ p ∈ parts, stage.mayHold p = true → stage'.mayHold p = true
  applied : ∀ p, stage'.applied p = stage.applied p
  decided : stage'.decided = stage.decided
  ne_prepare : ∀ todo, stage' ≠ .prepare todo
  ne_commit : ∀ todo, stage' ≠ .commit todo

/-- The coordinator crashes. -/
lemma Stage.quiet_crash (parts : List π) :
    Stage.Quiet parts (.prepare [] : Stage π K V) .crashed := by
  constructor <;> simp [held, mayHold, applied, decided]

/-- All have been told to commit. -/
lemma Stage.quiet_finish (parts : List π) :
    Stage.Quiet parts (.commit [] : Stage π K V) (.finished true) := by
  constructor <;> simp [held, mayHold, applied, decided]

/-- All have been told to abort. -/
lemma Stage.quiet_giveUp (parts : List π) :
    Stage.Quiet parts (.abort [] : Stage π K V) (.finished false) := by
  constructor <;> simp [held, mayHold, applied, decided]

/-- A decision to abort. -/
lemma Stage.quiet_abort {parts todo : List π} (happlied : ∀ p, stage.applied p = false)
    (hdecided : stage.decided = false) (htodo : parts ⊆ todo) :
    stage.Quiet parts (.abort todo) where
  held _ _ h := absurd h Bool.false_ne_true
  mayHold _ hp _ := decide_eq_true (htodo hp)
  applied p := (happlied p).symm
  decided := hdecided.symm
  ne_prepare _ h := nomatch h
  ne_commit _ h := nomatch h

/-- The writes of a transaction at a participant. -/
def Transaction.writesAt (t : Transaction π K V) (p : π) : List (K × V) :=
  (t.perParticipant.filter (·.1 = p)).flatMap Prod.snd

/-- The writes that are given for a participant. -/
lemma Transaction.writesAt_of_mem (hnodup : t.parts.Nodup) (h : (p, ws) ∈ t.perParticipant) :
    t.writesAt p = ws := by
  unfold Transaction.writesAt
  unfold Transaction.parts at hnodup
  generalize t.perParticipant = l at hnodup h
  induction l with
  | nil => cases h
  | cons x l ih =>
    obtain ⟨hx, hl⟩ := nodup_cons.mp hnodup
    rcases mem_cons.mp h with rfl | h
    · have hnone : l.filter (·.1 = p) = [] := by
        refine filter_eq_nil_iff.mpr fun y hy heq => hx ?_
        exact mem_map.mpr ⟨y, hy, of_decide_eq_true heq⟩
      simp [hnone]
    · have hne : x.1 ≠ p := fun heq => hx (heq ▸ mem_map_of_mem h)
      simpa [hne] using ih hl h

/-- Other participants have no writes. -/
lemma Transaction.writesAt_of_notMem (h : p ∉ t.parts) : t.writesAt p = [] := by
  unfold Transaction.writesAt
  have hnone : t.perParticipant.filter (·.1 = p) = [] := by
    refine filter_eq_nil_iff.mpr fun y hy heq => h ?_
    exact mem_map.mpr ⟨y, hy, of_decide_eq_true heq⟩
  rw [hnone]
  rfl

end stage

/-! ### Steps -/

variable [DecidableEq π] [DecidableEq τ] [DecidableEq K] {s s' : State π τ K V}

/-- What a step does to participants and transactions. -/
inductive Move (s : State π τ K V) : State π τ K V → Prop where
  | idle : Move s s
  | votes (p : π) (voteNo down : Bool) :
      Move s (s.setParticipant p { s.participants p with voteNo := voteNo, down := down })
  | execute (tx : τ) (perParticipant : List (π × List (K × V))) (hfresh : s.txs tx = none)
      (hnodup : (perParticipant.map Prod.fst).Nodup) :
      Move s
        { s with txs := Function.update s.txs tx (some ⟨perParticipant, .prepare perParticipant⟩) }
  | prepare (tx : τ) (t : Transaction π K V) (p : π) (ws : List (K × V))
      (rest : List (π × List (K × V))) (htx : s.txs tx = some t)
      (hstage : t.stage = .prepare ((p, ws) :: rest))
      (hfree : ∀ w ∈ ws, ∀ owner, (s.participants p).locked w.1 = some owner → owner = tx) :
      Move s ((s.setParticipant p
        { s.participants p with
          staged := Function.update (s.participants p).staged tx (some ws)
          locked := Participant.lock (s.participants p).locked tx ws }).setStage tx t
        (.prepare rest))
  | go (tx : τ) (t : Transaction π K V) (stage : Stage π K V) (htx : s.txs tx = some t)
      (hquiet : t.stage.Quiet t.parts stage) : Move s (s.setStage tx t stage)
  | decide (tx : τ) (t : Transaction π K V) (todo : List π) (htx : s.txs tx = some t)
      (hheld : ∀ p, t.stage.held p = true) (hdecided : t.stage.decided = false)
      (hperm : todo.Perm t.parts) : Move s (s.setStage tx t (.commit todo))
  | commit (tx : τ) (t : Transaction π K V) (p : π) (rest : List π) (htx : s.txs tx = some t)
      (hstage : t.stage = .commit (p :: rest)) :
      Move s ((s.setParticipant p ((s.participants p).commit tx)).setStage tx t (.commit rest))
  | abort (tx : τ) (t : Transaction π K V) (p : π) (rest : List π) (htx : s.txs tx = some t)
      (hstage : t.stage = .abort (p :: rest)) :
      Move s ((s.setParticipant p ((s.participants p).abort tx)).setStage tx t (.abort rest))

/-- Without a lock of another transaction, the owners of the keys are the transaction itself. -/
lemma eq_of_not_held {locked : K → Option τ} {tx : τ} {ws : List (K × V)}
    (h : ¬ (ws.any fun w => (locked w.1).any fun owner => owner ≠ tx) = true) :
    ∀ w ∈ ws, ∀ owner, locked w.1 = some owner → owner = tx := by
  intro w hw owner howner
  by_contra hne
  refine h (any_eq_true.mpr ⟨w, hw, ?_⟩)
  simp [howner, hne]

/-- A participant refuses, or stages and locks. -/
lemma Participant.prepare_cases (p : Participant τ K V) (tx : τ) (ws : List (K × V)) :
    ((p.prepare tx ws).1 = p ∧ (p.prepare tx ws).2 ≠ .yes) ∨
      p.prepare tx ws =
        ({ p with
            staged := update p.staged tx (some ws)
            locked := lock p.locked tx ws }, .yes) ∧
        ∀ w ∈ ws, ∀ owner, p.locked w.1 = some owner → owner = tx := by
  unfold Participant.prepare
  split_ifs with hdown hno hheld
  · exact .inl ⟨rfl, fun h => nomatch h⟩
  · exact .inl ⟨rfl, fun h => nomatch h⟩
  · exact .inl ⟨rfl, fun h => nomatch h⟩
  · exact .inr ⟨rfl, eq_of_not_held hheld⟩

/-- **The next call of a transaction is a move.** -/
theorem move_advance (htx : s.txs tx = some t) (crash : Bool) : Move s (s.advance tx t crash) := by
  unfold State.advance
  split
  case h_1 p ws rest hstage =>
    rcases (s.participants p).prepare_cases tx ws with ⟨hsame, hno⟩ | ⟨heq, hfree⟩
    · dsimp only
      rw [hsame, if_neg hno]
      have hset : s.setParticipant p (s.participants p) = s := by
        unfold State.setParticipant
        rw [update_eq_self]
      rw [hset]
      refine .go tx t _ htx (Stage.quiet_abort (fun q => ?_) ?_ (List.Subset.refl _))
      · rw [hstage]
        rfl
      · rw [hstage]
        rfl
    · dsimp only
      rw [heq]
      exact .prepare tx t p ws rest htx hstage hfree
  case h_2 hstage =>
    cases crash with
    | true => exact .go tx t _ htx (hstage ▸ Stage.quiet_crash _)
    | false =>
      refine .decide tx t t.parts htx (fun q => ?_) ?_ (List.Perm.refl _)
      · rw [hstage]
        rfl
      · rw [hstage]
        rfl
  case h_3 p rest hstage => exact .commit tx t p rest htx hstage
  case h_4 hstage => exact .go tx t _ htx (hstage ▸ Stage.quiet_finish _)
  case h_5 p rest hstage => exact .abort tx t p rest htx hstage
  case h_6 hstage => exact .go tx t _ htx (hstage ▸ Stage.quiet_giveUp _)
  · exact .idle
  · exact .idle

/-- **A step is a move.** -/
theorem move_step {a : Action π τ K V} (hadm : s.admissible a = true) : Move s (s.step a) := by
  cases a with
  | execute tx perParticipant =>
    obtain ⟨hfresh, hnodup⟩ := of_decide_eq_true hadm
    exact .execute tx perParticipant (Option.isNone_iff_eq_none.mp hfresh) hnodup
  | advance tx crash =>
    dsimp only [State.step]
    split
    · exact .idle
    case h_2 t htx => exact move_advance htx crash
  | recover tx decision participants =>
    dsimp only [State.step]
    split
    case h_1 perParticipant htx =>
      have hperm : participants.Perm (perParticipant.map Prod.fst) :=
        of_decide_eq_true hadm _ htx
      cases decision with
      | true => exact .decide tx _ participants htx (fun _ => rfl) rfl hperm
      | false =>
        exact .go tx _ _ htx (Stage.quiet_abort (fun _ => rfl) rfl hperm.symm.subset)
    · exact .idle
  | setVoteNo p voteNo => exact .votes p voteNo (s.participants p).down
  | setDown p down => exact .votes p (s.participants p).voteNo down

/-! ### The invariant -/

/-- The participants that are still to be told or asked are those of the transaction. -/
structure Transaction.Shape (t : Transaction π K V) : Prop where
  nodup : t.parts.Nodup
  prepare : ∀ todo, t.stage = .prepare todo → todo <:+ t.perParticipant
  commit : ∀ todo, t.stage = .commit todo → todo.Nodup ∧ todo ⊆ t.parts

/-- A participant against the transactions. -/
structure Participant.Serves (q : Participant τ K V) (txs : τ → Option (Transaction π K V))
    (p : π) : Prop where
  /-- A transaction that holds the participant has its writes staged there. -/
  staged : ∀ tx t ws, txs tx = some t → (p, ws) ∈ t.perParticipant → t.stage.held p = true →
    q.staged tx = some ws
  /-- Staged writes are those of a transaction that may hold the participant. -/
  owner : ∀ tx ws, q.staged tx = some ws →
    ∃ t, txs tx = some t ∧ (p, ws) ∈ t.perParticipant ∧ t.stage.mayHold p = true
  locks : q.LocksStaged

namespace Participant.Serves

variable {txs : τ → Option (Transaction π K V)} {q q' : Participant τ K V} (h : q.Serves txs p)

include h

/-- **One transaction goes on**, and at most what it has staged changes. -/
theorem change {t' : Transaction π K V} {staged : Option (List (K × V))}
    (hstaged : q'.staged = update q.staged tx staged) (hlocks : q'.LocksStaged)
    (hheld : ∀ ws, (p, ws) ∈ t'.perParticipant → t'.stage.held p = true → staged = some ws)
    (hmay : ∀ ws, staged = some ws → (p, ws) ∈ t'.perParticipant ∧ t'.stage.mayHold p = true) :
    q'.Serves (update txs tx (some t')) p := by
  refine ⟨fun tx' x ws hx hmem hxheld => ?_, fun tx' ws hst => ?_, hlocks⟩
  · rw [hstaged]
    by_cases heq : tx' = tx
    · subst heq
      rw [update_self] at hx ⊢
      obtain rfl := Option.some.inj hx
      exact hheld ws hmem hxheld
    · rw [update_of_ne heq] at hx ⊢
      exact h.staged tx' x ws hx hmem hxheld
  · rw [hstaged] at hst
    by_cases heq : tx' = tx
    · subst heq
      rw [update_self] at hst ⊢
      exact ⟨t', rfl, hmay ws hst⟩
    · rw [update_of_ne heq] at hst ⊢
      exact h.owner tx' ws hst

variable (htx : txs tx = some t)

include htx

/-- What a transaction has staged is what it writes. -/
lemma mem_of_staged (hstaged : q.staged tx = some ws) :
    (p, ws) ∈ t.perParticipant ∧ t.stage.mayHold p = true := by
  obtain ⟨x, hx, hrest⟩ := h.owner tx ws hstaged
  obtain rfl : t = x := Option.some.inj (htx.symm.trans hx)
  exact hrest

/-- The transaction goes on elsewhere. -/
lemma setStage (hheld : p ∈ t.parts → stage.held p = true → t.stage.held p = true)
    (hmay : p ∈ t.parts → t.stage.mayHold p = true → stage.mayHold p = true) :
    q.Serves (update txs tx (some { t with stage := stage })) p := by
  refine h.change (update_eq_self tx q.staged).symm h.locks (fun ws hmem hp => ?_)
    fun ws hstaged => ?_
  · exact h.staged tx t ws htx hmem (hheld (mem_map_of_mem hmem) hp)
  · obtain ⟨hmem, hp⟩ := h.mem_of_staged htx hstaged
    exact ⟨hmem, hmay (mem_map_of_mem hmem) hp⟩

end Participant.Serves

/-- Transactions against the staging areas and the locks of participants. -/
structure LockInv (s : State π τ K V) : Prop where
  shape : ∀ tx t, s.txs tx = some t → t.Shape
  serves : ∀ p, (s.participants p).Serves s.txs p

/-- Nothing is staged at first. -/
lemma lockInv_new : LockInv (State.new : State π τ K V) where
  shape _ _ h := nomatch h
  serves _ := by constructor <;> simp [State.new, Participant.new, Participant.LocksStaged]

namespace LockInv

section

variable (h : LockInv s)

include h

/-- The shapes of the transactions when one of them goes on. -/
lemma shape_update {t' : Transaction π K V} (hshape : t'.Shape) :
    ∀ tx' x, update s.txs tx (some t') tx' = some x → x.Shape := by
  intro tx' x hx
  by_cases heq : tx' = tx
  · subst heq
    rw [update_self] at hx
    exact Option.some.inj hx ▸ hshape
  · rw [update_of_ne heq] at hx
    exact h.shape tx' x hx

section

variable (htx : s.txs tx = some t)
  (hshape : ({ t with stage := stage } : Transaction π K V).Shape)

include htx hshape

/-- A transaction goes on without a call. -/
lemma setStage (hheld : ∀ p ∈ t.parts, stage.held p = true → t.stage.held p = true)
    (hmay : ∀ p ∈ t.parts, t.stage.mayHold p = true → stage.mayHold p = true) :
    LockInv (s.setStage tx t stage) :=
  ⟨h.shape_update hshape, fun p => (h.serves p).setStage htx (hheld p) (hmay p)⟩

/-- A transaction goes on at one participant, which replaces what it has staged. -/
lemma setParticipant {q : Participant τ K V} {staged : Option (List (K × V))}
    (hstaged : q.staged = update (s.participants p).staged tx staged) (hlocks : q.LocksStaged)
    (hheld : ∀ ws, (p, ws) ∈ t.perParticipant → stage.held p = true → staged = some ws)
    (hmay : ∀ ws, staged = some ws → (p, ws) ∈ t.perParticipant ∧ stage.mayHold p = true)
    (hheld' : ∀ p', p' ≠ p → stage.held p' = true → t.stage.held p' = true)
    (hmay' : ∀ p', p' ≠ p → t.stage.mayHold p' = true → stage.mayHold p' = true) :
    LockInv ((s.setParticipant p q).setStage tx t stage) := by
  refine ⟨h.shape_update hshape, fun p' => ?_⟩
  unfold State.setParticipant State.setStage
  by_cases hp' : p' = p
  · subst hp'
    dsimp only
    rw [update_self]
    exact (h.serves p').change hstaged hlocks hheld hmay
  · dsimp only
    rw [update_of_ne hp']
    exact (h.serves p').setStage htx (fun _ => hheld' p' hp') fun _ => hmay' p' hp'

end

/-- A participant votes yes. -/
lemma prepare {rest : List (π × List (K × V))} (htx : s.txs tx = some t)
    (hstage : t.stage = .prepare ((p, ws) :: rest))
    (hfree : ∀ w ∈ ws, ∀ owner, (s.participants p).locked w.1 = some owner → owner = tx) :
    LockInv ((s.setParticipant p
      { s.participants p with
        staged := update (s.participants p).staged tx (some ws)
        locked := Participant.lock (s.participants p).locked tx ws }).setStage tx t
      (.prepare rest)) := by
  have hshape := h.shape tx t htx
  have hsuffix := hshape.prepare _ hstage
  have hmem : (p, ws) ∈ t.perParticipant := hsuffix.subset mem_cons_self
  have hnodup := hshape.nodup.sublist (hsuffix.sublist.map Prod.fst)
  have hnot : p ∉ rest.map Prod.fst := (nodup_cons.mp hnodup).1
  have hnone : (s.participants p).staged tx = none := by
    refine Option.eq_none_iff_forall_ne_some.mpr fun ws' hst => ?_
    have hmay := ((h.serves p).mem_of_staged htx hst).2
    rw [hstage] at hmay
    simp [Stage.mayHold, Stage.held] at hmay
  have hcons : ∀ p', p' ≠ p →
      (p' ∉ ((p, ws) :: rest).map Prod.fst ↔ p' ∉ rest.map Prod.fst) := by
    intro p' hp'
    simp [hp']
  refine h.setParticipant htx ?_ rfl ((h.serves p).locks.prepare hnone hfree)
    (fun ws' hmem' _ => ?_) (fun ws' heq => ?_) (fun p' hp' hheld => ?_) fun p' hp' hmay => ?_
  · refine ⟨hshape.nodup, fun todo htodo => ?_, fun todo htodo => nomatch htodo⟩
    obtain rfl := Stage.prepare.inj htodo
    exact (suffix_cons _ _).trans hsuffix
  · rw [← Transaction.writesAt_of_mem hshape.nodup hmem,
      Transaction.writesAt_of_mem hshape.nodup hmem']
  · obtain rfl := Option.some.inj heq
    exact ⟨hmem, decide_eq_true hnot⟩
  · rw [hstage]
    exact decide_eq_true ((hcons p' hp').mpr (of_decide_eq_true hheld))
  · rw [hstage] at hmay
    exact decide_eq_true ((hcons p' hp').mp (of_decide_eq_true hmay))

/-- **A transaction owns the keys that it writes where it holds locks.** -/
theorem locked_of_held (htx : s.txs tx = some t) (hheld : t.stage.held p = true) {w : K × V}
    (hw : w ∈ t.writesAt p) : (s.participants p).locked w.1 = some tx := by
  have hp : p ∈ t.parts := by
    by_contra hp
    simp [Transaction.writesAt_of_notMem hp] at hw
  obtain ⟨⟨p', ws⟩, hmem, rfl⟩ := mem_map.mp hp
  rw [Transaction.writesAt_of_mem (h.shape tx t htx).nodup hmem] at hw
  have hstaged := (h.serves p').staged tx t ws htx hmem hheld
  exact ((h.serves p').locks w.1 tx).mpr ⟨ws, hstaged, w, hw, rfl⟩

end

end LockInv

/-- **One step keeps locks and transactions together.** -/
theorem lockInv_move (hmove : Move s s') (h : LockInv s) : LockInv s' := by
  cases hmove with
  | idle => exact h
  | votes p voteNo down =>
    refine ⟨h.shape, fun p' => ?_⟩
    unfold State.setParticipant
    by_cases hp' : p' = p
    · subst hp'
      dsimp only
      rw [update_self]
      exact ⟨(h.serves p').staged, (h.serves p').owner, (h.serves p').locks⟩
    · dsimp only
      rw [update_of_ne hp']
      exact h.serves p'
  | execute tx perParticipant hfresh hnodup =>
    refine ⟨h.shape_update ⟨hnodup, fun todo htodo => ?_, fun todo htodo => nomatch htodo⟩,
      fun p => (h.serves p).change (update_eq_self tx _).symm (h.serves p).locks
        (fun ws hmem hheld => ?_) fun ws hst => ?_⟩
    · obtain rfl := Stage.prepare.inj htodo
      exact suffix_refl _
    · exact absurd (mem_map_of_mem hmem) (of_decide_eq_true hheld)
    · obtain ⟨t, ht, -⟩ := (h.serves p).owner tx ws hst
      exact absurd (hfresh.symm.trans ht) (Option.some_ne_none t).symm
  | prepare tx t p ws rest htx hstage hfree => exact h.prepare htx hstage hfree
  | go tx t stage htx hquiet =>
    refine h.setStage htx ?_ hquiet.held hquiet.mayHold
    exact ⟨(h.shape tx t htx).nodup, fun todo htodo => absurd htodo (hquiet.ne_prepare todo),
      fun todo htodo => absurd htodo (hquiet.ne_commit todo)⟩
  | decide tx t todo htx hheld hdecided hperm =>
    refine h.setStage htx ?_ (fun p _ _ => hheld p) fun p hp _ =>
      decide_eq_true (hperm.mem_iff.mpr hp)
    refine ⟨(h.shape tx t htx).nodup, fun todo htodo => (nomatch htodo), fun todo' htodo => ?_⟩
    obtain rfl := Stage.commit.inj htodo
    exact ⟨hperm.nodup_iff.mpr (h.shape tx t htx).nodup, hperm.subset⟩
  | commit tx t p rest htx hstage =>
    obtain ⟨hnodup, hsub⟩ := (h.shape tx t htx).commit _ hstage
    obtain ⟨hnot, hrest⟩ := nodup_cons.mp hnodup
    refine h.setParticipant htx ?_ (Participant.commit_staged _ _) ((h.serves p).locks.commit tx)
      (fun ws _ hheld => ?_) (fun ws heq => ?_) (fun p' hp' hheld => ?_) fun p' hp' hmay => ?_
    · refine ⟨(h.shape tx t htx).nodup, fun todo htodo => (nomatch htodo), fun todo htodo => ?_⟩
      obtain rfl := Stage.commit.inj htodo
      exact ⟨hrest, (cons_subset.mp hsub).2⟩
    · exact absurd (of_decide_eq_true hheld) hnot
    · exact absurd heq (Option.some_ne_none ws).symm
    · rw [hstage]
      exact decide_eq_true (mem_cons_of_mem p (of_decide_eq_true hheld))
    · rw [hstage] at hmay
      exact decide_eq_true ((mem_cons.mp (of_decide_eq_true hmay)).resolve_left hp')
  | abort tx t p rest htx hstage =>
    refine h.setParticipant htx ?_ (Participant.abort_staged _ _) ((h.serves p).locks.abort tx)
      (fun ws _ hheld => ?_) (fun ws heq => ?_) (fun p' hp' hheld => ?_) fun p' hp' hmay => ?_
    · exact ⟨(h.shape tx t htx).nodup, fun todo htodo => (nomatch htodo),
        fun todo htodo => nomatch htodo⟩
    · exact absurd hheld Bool.false_ne_true
    · exact absurd heq (Option.some_ne_none ws).symm
    · exact absurd hheld Bool.false_ne_true
    · rw [hstage] at hmay
      exact decide_eq_true ((mem_cons.mp (of_decide_eq_true hmay)).resolve_left hp')

end Replication.TwoPC
