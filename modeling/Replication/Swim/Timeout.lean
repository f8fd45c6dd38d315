import Replication.Swim.SelfDefence

/-!
# Swim · Timeout: how long a suspicion lasts

A view that is driven by a clock that starts at zero and does not go back. Beside the view, the
state keeps since when each member has been suspected, and whether the present suspicion came by
gossip: a gossiped suspicion has no time, and the view starts it at zero. Both are followed through
a list of gossip entry by entry, since one list can clear a member and suspect it again.
-/

set_option linter.unusedSectionVars false

namespace Replication.Swim

open Library

variable {I : Type}

/-- The member is suspected. -/
def Membership.suspected (m : Membership I) (id : I) : Bool :=
  (m.members id).any fun mem => mem.state = .suspect

/-- The call merges gossip. -/
def Op.isMerge : Op I → Bool
  | .merge _ => true
  | _ => false

/-- The entries of a list of gossip are merged one after the other. -/
def Op.parts : Op I → List (Op I)
  | .merge gossip => gossip.map fun g => .merge [g]
  | op => [op]

/-- If the call raises a suspicion, it does so at the time. -/
def Op.raisedAt (clock : ℤ) : Op I → Bool
  | .suspect _ _ now => now = clock
  | _ => true

/-- A call, and the time when it is made. -/
structure Event (I : Type) where
  clock : ℤ
  op : Op I
  deriving DecidableEq, Repr

/-- A view, and what has happened to its members. -/
structure Watch (I : Type) where
  view : Membership I
  clock : ℤ
  /-- When a suspected member became so. -/
  since : I → ℤ
  /-- The last belief about a member came by gossip. -/
  gossiped : I → Bool

namespace Watch

variable [DecidableEq I]

/-- The view of a new node at time zero. -/
def new (selfID : I) : Watch I := ⟨.new selfID, 0, fun _ => 0, fun _ => false⟩

/-- One call at a time, with at most one entry of gossip. -/
def part (clock : ℤ) (w : Watch I) (op : Op I) : Watch I where
  view := w.view.apply op
  clock := clock
  since id := if (w.view.apply op).suspected id ∧ ¬ w.view.suspected id then clock else w.since id
  gossiped id :=
    if (w.view.apply op).belief id = w.view.belief id then w.gossiped id else op.isMerge

/-- A call. What has happened to the members is followed through its parts. -/
def step (w : Watch I) (e : Event I) : Watch I where
  view := w.view.apply e.op
  clock := e.clock
  since := (run (part e.clock) w e.op.parts).since
  gossiped := (run (part e.clock) w e.op.parts).gossiped

/-- The clock does not go back, and suspicions are raised at its time. -/
def onClock (w : Watch I) (e : Event I) : Bool := w.clock ≤ e.clock ∧ e.op.raisedAt e.clock

/-- A tick with a deadline above zero meets no member that is suspected by gossip, and since the
deadline or later. -/
def Unhurried (w : Watch I) (e : Event I) : Prop :=
  match e.op with
  | .tickSuspicions deadline => ∀ id, w.view.suspected id = true → w.gossiped id = true →
      deadline ≤ w.since id → deadline ≤ 0
  | _ => True

/-- A tick does not promote a member that is suspected since the deadline or later. -/
def Waits (w : Watch I) (e : Event I) : Prop :=
  match e.op with
  | .tickSuspicions deadline => ∀ id, w.view.suspected id = true → deadline ≤ w.since id →
      (w.view.tickSuspicions deadline).2 id = false
  | _ => True

/-- The parts of a call do to the view what the call does. -/
lemma view_run_part (clock : ℤ) (w : Watch I) (op : Op I) :
    (run (part clock) w op.parts).view = w.view.apply op := by
  cases op with
  | merge gossip =>
    show (run (part clock) w (gossip.map fun g => .merge [g])).view = w.view.merge gossip
    unfold Membership.merge
    induction gossip generalizing w with
    | nil => rfl
    | cons g gossip ih => exact ih (w.part clock (.merge [g]))
  | alive | suspect | dead | refuteSuspicion | tickSuspicions => rfl

end Watch

section inv

variable [DecidableEq I] {m : Membership I} {w : Watch I} {id : I}

/-- The entry of a suspected member. -/
lemma suspected_iff : m.suspected id = true ↔
    ∃ mem, m.members id = some mem ∧ mem.state = .suspect := by
  unfold Membership.suspected
  cases m.members id with
  | none | some => simp

/-- News change the belief. -/
lemma belief_ne_of_news {m' : Membership I} {new : Member I} (hnew : m'.members id = some new)
    (hnews : News (m.members id) new) : m'.belief id ≠ m.belief id := by
  rw [Ne, belief_eq_iff]
  unfold Membership.rank
  rw [hnew]
  cases hcur : m.members id with
  | none => exact new.rank_pos.ne'
  | some cur => exact (hnews cur hcur).2.ne'

/-! ### The local member is not suspected -/

/-- No call makes the local member suspect itself. -/
lemma self_apply_not_suspect (h : m.self.state ≠ .suspect) (op : Op I) :
    (m.apply op).self.state ≠ .suspect := by
  cases op with
  | alive id incarnation => exact (effect_alive m id incarnation).self_not_suspect h
  | suspect id incarnation now => exact (effect_suspect m id incarnation now).self_not_suspect h
  | dead id => exact (effect_dead m id).self_not_suspect h
  | refuteSuspicion => exact (effect_refuteSuspicion m fun _ _ => True).self_not_suspect h
  | tickSuspicions deadline =>
    show (m.tickSuspicions deadline).1.self.state ≠ .suspect
    rwa [self_tickSuspicions h]
  | merge gossip =>
    exact List.foldlRecOn (motive := fun m : Membership I => m.self.state ≠ .suspect) gossip _ h
      fun _ ih g _ => (effect_mergeOne _ g).self_not_suspect ih

/-! ### The times of suspicions -/

/-- The time that the view keeps for a suspicion: none if it came by gossip, and otherwise not
before the member became suspected. -/
structure WatchInv (w : Watch I) : Prop where
  self : w.view.self.state ≠ .suspect
  since : ∀ id, w.view.suspected id = true → w.since id ≤ w.clock
  /-- A gossiped suspicion starts at zero. -/
  gossiped : ∀ id mem, w.view.members id = some mem → mem.state = .suspect →
    w.gossiped id = true → mem.suspectedAt = 0
  /-- The others start when they were raised. -/
  raised : ∀ id mem, w.view.members id = some mem → mem.state = .suspect →
    w.gossiped id = false → w.since id ≤ mem.suspectedAt

/-- Nobody is suspected at first. -/
lemma watchInv_new (selfID : I) : WatchInv (Watch.new selfID) := by
  have hnone : ∀ id mem, (Membership.new selfID).members id = some mem → mem.state ≠ .suspect := by
    intro id mem hmem
    dsimp only [Membership.new] at hmem
    rw [Function.update_apply] at hmem
    split_ifs at hmem
    cases hmem
    exact nofun
  refine ⟨hnone selfID _ (Membership.new selfID).members_selfID, fun id hid => ?_,
    fun id mem hmem hstate => absurd hstate (hnone id mem hmem),
    fun id mem hmem hstate => absurd hstate (hnone id mem hmem)⟩
  obtain ⟨mem, hmem, hstate⟩ := suspected_iff.mp hid
  exact absurd hstate (hnone id mem hmem)

/-- A part of a call keeps the times. -/
lemma watchInv_part (h : WatchInv w) {c : ℤ} (hclock : w.clock ≤ c) {op : Op I}
    (hraised : op.raisedAt c = true) : WatchInv (w.part c op) := by
  have hself : (w.part c op).view.self.state ≠ .suspect := self_apply_not_suspect h.self op
  have hsince : ∀ id, (w.part c op).view.suspected id = true → (w.part c op).since id ≤ c := by
    intro id hid
    show (if _ then c else w.since id) ≤ c
    split_ifs with hnew
    · exact le_rfl
    have hold : w.view.suspected id = true := by
      by_contra hold
      exact hnew ⟨hid, hold⟩
    exact (h.since id hold).trans hclock
  -- the entry of a suspected member after the call, by what the call did to it
  have hentry : ∀ id mem, (w.part c op).view.members id = some mem → mem.state = .suspect →
      ((w.part c op).gossiped id = true → mem.suspectedAt = 0) ∧
        ((w.part c op).gossiped id = false → (w.part c op).since id ≤ mem.suspectedAt) := by
    intro id mem hmem hstate
    have hsus : (w.part c op).view.suspected id = true := suspected_iff.mpr ⟨mem, hmem, hstate⟩
    have hid : id ≠ w.view.selfID := by
      rintro rfl
      have hmem' := (w.part c op).view.members_selfID
      rw [show (w.part c op).view.selfID = w.view.selfID from apply_selfID w.view op, hmem] at hmem'
      exact hself (Option.some.inj hmem' ▸ hstate)
    have htouch := touch_apply hid op
    rw [show (w.view.apply op).members id = some mem from hmem] at htouch
    generalize hcur : w.view.members id = o at htouch
    cases htouch with
    | same =>
      have hbelief : (w.view.apply op).belief id = w.view.belief id := by
        unfold Membership.belief
        rw [hcur, show (w.view.apply op).members id = some mem from hmem]
      have hold : w.view.suspected id = true := suspected_iff.mpr ⟨mem, hcur, hstate⟩
      have hg : (w.part c op).gossiped id = w.gossiped id := if_pos hbelief
      have hs : (w.part c op).since id = w.since id := if_neg fun hnew => hnew.2 hold
      rw [hg, hs]
      exact ⟨h.gossiped id mem hcur hstate, h.raised id mem hcur hstate⟩
    | settle _ hne => exact absurd hstate hne
    | suspect _ hop hnews =>
      have hg : (w.part c op).gossiped id = false :=
        (if_neg (belief_ne_of_news hmem (hcur ▸ hnews))).trans (by rw [hop]; rfl)
      rw [hop] at hraised
      have hat : mem.suspectedAt = c := of_decide_eq_true hraised
      rw [hg, hat]
      exact ⟨fun hm => absurd hm Bool.false_ne_true, fun _ => hsince id hsus⟩
    | merge _ gossip hop hzero hnews =>
      have hg : (w.part c op).gossiped id = true :=
        (if_neg (belief_ne_of_news hmem (hcur ▸ hnews))).trans (by rw [hop]; rfl)
      rw [hg]
      exact ⟨fun _ => hzero, fun hm => absurd hm (Ne.symm Bool.false_ne_true)⟩
  exact ⟨hself, hsince, fun id mem hmem hstate => (hentry id mem hmem hstate).1,
    fun id mem hmem hstate => (hentry id mem hmem hstate).2⟩

/-- The parts of a call raise suspicions when the call does. -/
lemma raisedAt_of_mem_parts {c : ℤ} {op op' : Op I} (h : op.raisedAt c = true)
    (hop' : op' ∈ op.parts) : op'.raisedAt c = true := by
  cases op with
  | merge =>
    obtain ⟨g, -, rfl⟩ := List.mem_map.mp hop'
    rfl
  | alive | suspect | dead | refuteSuspicion | tickSuspicions =>
    exact List.mem_singleton.mp hop' ▸ h

/-- **A call keeps the times.** -/
theorem watchInv_step (h : WatchInv w) {e : Event I} (he : w.onClock e = true) :
    WatchInv (w.step e) := by
  obtain ⟨hclock, hraised⟩ := of_decide_eq_true he
  have hparts : Along (Watch.part e.clock) (fun _ op => op.raisedAt e.clock = true) w e.op.parts :=
    along_of_forall (fun _ hop => raisedAt_of_mem_parts hraised hop) w
  obtain ⟨hrun, hle⟩ := run_invariant (fun w' => WatchInv w' ∧ w'.clock ≤ e.clock)
    (fun _ _ hop hw => ⟨watchInv_part hw.1 hw.2 hop, le_rfl⟩) hparts ⟨h, hclock⟩
  have hview : (w.step e).view = (run (Watch.part e.clock) w e.op.parts).view :=
    (Watch.view_run_part e.clock w e.op).symm
  refine ⟨hview ▸ hrun.self, fun id hid => ?_, fun id => ?_, fun id => ?_⟩
  · rw [hview] at hid
    exact (hrun.since id hid).trans hle
  · rw [hview]
    exact hrun.gossiped id
  · rw [hview]
    exact hrun.raised id

/-- **A tick waits** exactly if it is unhurried. -/
theorem unhurried_iff_waits (h : WatchInv w) (e : Event I) : w.Unhurried e ↔ w.Waits e := by
  unfold Watch.Unhurried Watch.Waits
  cases e.op with
  | tickSuspicions deadline =>
    refine forall_congr' fun id => forall_congr' fun hsus => ?_
    obtain ⟨mem, hmem, hstate⟩ := suspected_iff.mp hsus
    have hpromoted : (w.view.tickSuspicions deadline).2 id = false ↔
        deadline ≤ mem.suspectedAt := by
      show (w.view.members id).any (Membership.expired deadline) = false ↔ _
      rw [hmem, Option.any_some, Membership.expired, decide_eq_false_iff_not, not_and, not_lt]
      exact ⟨fun hle => hle hstate, fun hle _ => hle⟩
    rw [hpromoted]
    cases hg : w.gossiped id with
    | true =>
      rw [h.gossiped id mem hmem hstate hg]
      exact ⟨fun hle => hle rfl, fun hle _ => hle⟩
    | false =>
      have hsince := h.raised id mem hmem hstate hg
      exact ⟨fun _ hle => hle.trans hsince, fun _ hne => absurd hne Bool.false_ne_true⟩
  | alive | suspect | dead | refuteSuspicion | merge => exact Iff.rfl

end inv

/-- **The timeout of suspicions.** With a clock that starts at zero and does not go back, ticks
never promote a member that is suspected since their deadline or later exactly if no tick with a
deadline above zero meets such a member whose suspicion came by gossip. -/
theorem suspicions_wait_iff [DecidableEq I] (selfID : I) {es : List (Event I)}
    (h : Along Watch.step (fun w e => w.onClock e = true) (.new selfID) es) :
    Along Watch.step Watch.Unhurried (.new selfID) es ↔
      Along Watch.step Watch.Waits (.new selfID) es :=
  along_congr WatchInv (fun _ _ he hw => watchInv_step hw he)
    (fun _ e _ hw => unhurried_iff_waits hw e) h (watchInv_new selfID)

/-- A member is suspected at time five and still at a tick with deadline five. -/
theorem suspicions_wait_raised :
    Along Watch.step Watch.Waits (.new false) [⟨5, .suspect true 0 5⟩, ⟨7, .tickSuspicions 5⟩] := by
  refine (suspicions_wait_iff false (by decide)).mp ⟨trivial, ?_, trivial⟩
  show ∀ id : Bool, _
  decide

/-- A member is suspected by gossip at time five, and promoted by a tick with deadline three. -/
theorem gossiped_suspicion_hurried :
    Along Watch.step (fun w e => w.onClock e = true) (.new 0)
        [⟨5, .merge [⟨1, .suspect, 0, 0⟩]⟩, ⟨6, .tickSuspicions 3⟩] ∧
      ((Watch.new 0).step ⟨5, .merge [⟨1, .suspect, 0, 0⟩]⟩).view.suspected 1 = true ∧
      ((Watch.new 0).step ⟨5, .merge [⟨1, .suspect, 0, 0⟩]⟩).since 1 = 5 ∧
      (((Watch.new 0).step ⟨5, .merge [⟨1, .suspect, 0, 0⟩]⟩).view.tickSuspicions 3).2 1 =
        true := by
  decide

end Replication.Swim
