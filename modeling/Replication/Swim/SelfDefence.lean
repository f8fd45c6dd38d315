import Replication.Swim.Calls

/-!
# Swim · SelfDefence: a node in its own view

The local member of a view under any sequence of calls that does not declare it dead, as long as
incarnations are below the greatest `uint64`.
-/

set_option linter.unusedSectionVars false

namespace Replication.Swim

open Library

variable {I : Type} [DecidableEq I]

/-- The incarnations in a call are below a bound. -/
def Op.below (bound : ℕ) : Op I → Bool
  | .alive _ incarnation => incarnation < bound
  | .suspect _ incarnation _ => incarnation < bound
  | .merge gossip => gossip.all fun g => g.incarnation < bound
  | _ => true

/-- The claims of a call that a member is suspected or dead, in a direct suspicion or in gossip. -/
def Op.claims (id : I) : Op I → List (Member I)
  | .suspect id' incarnation now => if id' = id then [⟨id, .suspect, incarnation, now⟩] else []
  | .merge gossip => gossip.filter fun g => g.id = id ∧ g.state ≠ .alive
  | _ => []

/-- The greatest incarnation. -/
def maxIncarnation : ℕ := UInt64.size - 1

/-- All incarnations are below the greatest one, and the local member is not declared dead. -/
def Membership.defended (m : Membership I) (op : Op I) : Bool :=
  m.self.incarnation < maxIncarnation ∧ op.below maxIncarnation ∧ op ≠ .dead m.selfID

/-- A direct suspicion of the local member is about an incarnation that it has had. -/
def Membership.upToDate (m : Membership I) : Op I → Bool
  | .suspect id incarnation _ => id = m.selfID → incarnation ≤ m.self.incarnation
  | _ => true

/-- Below the greatest one, incarnations do not wrap around. -/
lemma succIncarnation_of_lt {i : ℕ} (h : i < maxIncarnation) : succIncarnation i = i + 1 := by
  unfold succIncarnation
  unfold maxIncarnation at h
  exact Nat.mod_eq_of_lt (by omega)

section self

variable {m : Membership I}

/-- The local member is alive, and its incarnation is not below a given one. -/
def AliveFrom (i : ℕ) (mem : Member I) : Prop := mem.state = .alive ∧ i ≤ mem.incarnation

/-- **One claim of a gossip list** leaves the local member alive, and above the claim if that is
about its failure. -/
theorem self_mergeOne (halive : m.self.state = .alive) {g : Member I}
    (hg : g.incarnation < maxIncarnation) :
    AliveFrom m.self.incarnation (m.mergeOne g).self ∧
      (g.id = m.selfID → g.state ≠ .alive → g.incarnation < (m.mergeOne g).self.incarnation) := by
  have hsucc := succIncarnation_of_lt hg
  by_cases hid : g.id = m.selfID
  · unfold Membership.mergeOne Membership.mergeSelf AliveFrom
    rw [if_pos hid]
    split_ifs with hstate hlt hlt
    · rw [Membership.self_put, if_pos m.self_id]
      exact ⟨⟨halive, hlt.le⟩, fun _ hne => absurd hstate hne⟩
    · exact ⟨⟨halive, le_rfl⟩, fun _ hne => absurd hstate hne⟩
    · exact ⟨⟨halive, le_rfl⟩, fun _ _ => hlt⟩
    · rw [Membership.self_put, if_pos m.self_id, hsucc]
      exact ⟨⟨rfl, by dsimp only; omega⟩, fun _ _ => Nat.lt_succ_self _⟩
  · rw [(effect_mergeOne m g).self_of_ne hid]
    exact ⟨⟨halive, le_rfl⟩, fun h => absurd h hid⟩

/-- **A gossip list** leaves the local member alive and above all claims of its failure. -/
theorem self_merge (halive : m.self.state = .alive) {gs : List (Member I)}
    (hgs : ∀ g ∈ gs, g.incarnation < maxIncarnation) :
    AliveFrom m.self.incarnation (m.merge gs).self ∧
      ∀ g ∈ gs, g.id = m.selfID → g.state ≠ .alive →
        g.incarnation < (m.merge gs).self.incarnation := by
  unfold Membership.merge
  induction gs generalizing m with
  | nil => exact ⟨⟨halive, le_rfl⟩, nofun⟩
  | cons g gs ih =>
    obtain ⟨hone, hclaim⟩ := self_mergeOne halive (hgs g List.mem_cons_self)
    obtain ⟨hrest, hclaims⟩ := ih hone.1 fun g' hg' => hgs g' (List.mem_cons_of_mem _ hg')
    rw [mergeOne_selfID] at hclaims
    rw [List.foldl_cons]
    refine ⟨⟨hrest.1, hone.2.trans hrest.2⟩, fun g' hg' hid hstate => ?_⟩
    rcases List.mem_cons.mp hg' with rfl | hg'
    · exact (hclaim hid hstate).trans_le hrest.2
    · exact hclaims g' hg' hid hstate

/-- A refutation takes the next incarnation. -/
lemma self_refuteSuspicion (hlt : m.self.incarnation < maxIncarnation) :
    m.refuteSuspicion.self.state = .alive ∧
      m.refuteSuspicion.self.incarnation = m.self.incarnation + 1 := by
  unfold Membership.refuteSuspicion
  rw [Membership.self_put, if_pos m.self_id]
  exact ⟨rfl, succIncarnation_of_lt hlt⟩

/-- `Alive` does not lower the incarnation of the local member. -/
lemma self_alive (halive : m.self.state = .alive) (id : I) (incarnation : ℕ) :
    AliveFrom m.self.incarnation (m.alive id incarnation).self := by
  unfold Membership.alive AliveFrom
  cases hcur : m.members id with
  | none =>
    have hid : id ≠ m.selfID := by
      rintro rfl
      simp [m.members_selfID] at hcur
    dsimp only
    rw [Membership.self_put, if_neg hid]
    exact ⟨halive, le_rfl⟩
  | some cur =>
    have hcurid := m.id_eq id cur hcur
    dsimp only
    split_ifs with hdead hlt hsame
    · exact ⟨halive, le_rfl⟩
    · exact ⟨halive, le_rfl⟩
    · exact ⟨halive, le_rfl⟩
    · rw [Membership.self_put]
      split_ifs with hid
      · have hself : m.self = cur := by
          rw [← hcurid, show cur.id = m.selfID from hid, m.members_selfID] at hcur
          exact Option.some.inj hcur
        rw [hself]
        exact ⟨rfl, not_lt.mp hlt⟩
      · exact ⟨halive, le_rfl⟩

/-- A tick does not touch the local member if it is not suspected. -/
lemma self_tickSuspicions (hstate : m.self.state ≠ .suspect) (deadline : ℤ) :
    (m.tickSuspicions deadline).1.self = m.self := by
  have h := (m.tickSuspicions deadline).1.members_selfID
  dsimp only [Membership.tickSuspicions] at h
  rw [m.members_selfID, Option.map_some, if_neg fun hexp => hstate (of_decide_eq_true hexp).1] at h
  exact (Option.some.inj h).symm

/-- **A call leaves the local member alive**, and its incarnation does not decrease. -/
theorem self_apply (halive : m.self.state = .alive) {op : Op I} (hop : m.defended op = true) :
    AliveFrom m.self.incarnation (m.apply op).self := by
  obtain ⟨hlt, hbelow, hdead⟩ := of_decide_eq_true hop
  have hsame : AliveFrom m.self.incarnation m.self := ⟨halive, le_rfl⟩
  have hrefute : AliveFrom m.self.incarnation m.refuteSuspicion.self := by
    obtain ⟨hstate, hinc⟩ := self_refuteSuspicion hlt
    exact ⟨hstate, by omega⟩
  cases op with
  | alive id incarnation => exact self_alive halive id incarnation
  | suspect id incarnation now =>
    show AliveFrom _ (m.suspect id incarnation now).self
    by_cases hid : id = m.selfID
    · unfold Membership.suspect
      rw [if_pos hid]
      exact hrefute
    · rw [(effect_suspect m id incarnation now).self_of_ne hid]
      exact hsame
  | dead id =>
    show AliveFrom _ (m.dead id).self
    rw [(effect_dead m id).self_of_ne fun hid => hdead (congrArg _ hid)]
    exact hsame
  | refuteSuspicion => exact hrefute
  | tickSuspicions deadline =>
    show AliveFrom _ (m.tickSuspicions deadline).1.self
    rw [self_tickSuspicions (by rw [halive]; exact fun h => nomatch h)]
    exact hsame
  | merge gossip => exact (self_merge halive fun g hg => of_decide_eq_true
      (List.all_eq_true.mp hbelow g hg)).1

/-- A later incarnation wins. -/
lemma gossipWins_of_lt {g mem : Member I} (h : g.incarnation < mem.incarnation) :
    gossipWins g mem = true := if_pos h

/-- **The claims of a call are outbid** exactly if the call is up to date. -/
theorem claims_outbid_iff (halive : m.self.state = .alive) {op : Op I}
    (hop : m.defended op = true) :
    m.upToDate op = true ↔
      ∀ g ∈ op.claims m.selfID, g.incarnation < (m.apply op).self.incarnation ∧
        gossipWins g (m.apply op).self = true := by
  obtain ⟨hlt, hbelow, -⟩ := of_decide_eq_true hop
  have hnone : (∀ g ∈ ([] : List (Member I)), g.incarnation < (m.apply op).self.incarnation ∧
      gossipWins g (m.apply op).self = true) := nofun
  cases op with
  | suspect id incarnation now =>
    show decide _ = true ↔ ∀ g ∈ ite _ _ _, _
    rw [decide_eq_true_eq]
    by_cases hid : id = m.selfID
    · have hinc : (m.apply (.suspect id incarnation now)).self.incarnation =
          m.self.incarnation + 1 := by
        show (m.suspect id incarnation now).self.incarnation = _
        unfold Membership.suspect
        rw [if_pos hid]
        exact (self_refuteSuspicion hlt).2
      rw [if_pos hid, List.forall_mem_singleton, hinc]
      refine ⟨fun h => ?_, fun h _ => Nat.le_of_lt_succ h.1⟩
      have hout : incarnation < m.self.incarnation + 1 := Nat.lt_succ_of_le (h hid)
      exact ⟨hout, gossipWins_of_lt (hinc ▸ hout)⟩
    · rw [if_neg hid]
      exact iff_of_true (fun h => absurd h hid) hnone
  | merge =>
    refine iff_of_true rfl fun g hg => ?_
    obtain ⟨hmem, hclaim⟩ := List.mem_filter.mp hg
    obtain ⟨hid, hstate⟩ := of_decide_eq_true hclaim
    have hout := (self_merge halive fun g hg => of_decide_eq_true
      (List.all_eq_true.mp hbelow g hg)).2 g hmem hid hstate
    exact ⟨hout, gossipWins_of_lt hout⟩
  | alive | dead | refuteSuspicion | tickSuspicions => exact iff_of_true rfl hnone

end self

/-- **Self-defence.** As long as incarnations are below the greatest one and nobody declares the
local member dead in its own view, it is alive there and its incarnation does not decrease. Every
claim of its failure is outbid by the call that brings it, so that the belief of the local member
wins over the claim, exactly if every direct suspicion is about an incarnation that it has had. -/
theorem self_defence (selfID : I) {ops : List (Op I)}
    (h : Along Membership.apply (fun m op => m.defended op = true) (.new selfID) ops) :
    Along Membership.apply (fun m op => (m.apply op).self.state = .alive ∧
      m.self.incarnation ≤ (m.apply op).self.incarnation) (.new selfID) ops ∧
    (Along Membership.apply (fun m op => m.upToDate op = true) (.new selfID) ops ↔
      Along Membership.apply (fun m op => ∀ g ∈ op.claims m.selfID,
        g.incarnation < (m.apply op).self.incarnation ∧
          gossipWins g (m.apply op).self = true) (.new selfID) ops) := by
  have hnew : (Membership.new selfID).self.state = .alive := by
    have hself := (Membership.new selfID).members_selfID
    dsimp only [Membership.new] at hself
    rw [Function.update_self] at hself
    exact (congrArg Member.state (Option.some.inj hself)).symm
  constructor
  · exact along_of_invariant (fun m => m.self.state = .alive)
      (fun m op hop halive => (self_apply halive hop).1)
      (fun m op hop halive => self_apply halive hop) h hnew
  · exact along_congr (fun m => m.self.state = .alive)
      (fun m op hop halive => (self_apply halive hop).1)
      (fun m op hop halive => claims_outbid_iff halive hop) h hnew

/-- The local member hears that it is suspected and then that it is dead. -/
theorem self_defence_gossip :
    Along Membership.apply (fun m op => ∀ g ∈ op.claims m.selfID,
        g.incarnation < (m.apply op).self.incarnation ∧ gossipWins g (m.apply op).self = true)
      (.new 0) ([.suspect 0 0 5, .merge [⟨0, .dead, 7, 0⟩]] : List (Op ℕ)) :=
  (self_defence 0 (by decide)).2.mp (by decide)

/-- A direct suspicion about incarnation ten is answered with incarnation one. -/
theorem suspicion_not_outbid :
    (Membership.new 0).defended (.suspect 0 10 5) = true ∧
      ((Membership.new 0).apply (.suspect 0 10 5)).self.incarnation = 1 ∧
      ∃ g ∈ (Op.suspect 0 10 5).claims 0,
        g.incarnation = 10 ∧
          gossipWins g ((Membership.new 0).apply (.suspect 0 10 5)).self = false := by
  decide

end Replication.Swim
