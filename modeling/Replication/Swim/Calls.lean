import Replication.Library.Run
import Replication.Swim.Gossip

/-!
# Swim · Calls: what the calls on a view do to another member

A view under any sequence of calls. What a call can do to the entry of a member other than the local
one is said once: nothing, or it settles the entry, or a suspicion or a list of gossip brings news.

* `view_monotone` — beliefs about other members only move ahead.
-/

set_option linter.unusedSectionVars false

namespace Replication.Swim

open Library

variable {I : Type} {cur : Member I}

/-- A call on a view. -/
inductive Op (I : Type) where
  | alive (id : I) (incarnation : ℕ)
  | suspect (id : I) (incarnation : ℕ) (now : ℤ)
  /-- `Dead`, or `Confirm`. -/
  | dead (id : I)
  | refuteSuspicion
  | tickSuspicions (deadline : ℤ)
  | merge (gossip : List (Member I))
  deriving DecidableEq, Repr

namespace Membership

variable [DecidableEq I]

/-- The view after a call. -/
def apply (m : Membership I) : Op I → Membership I
  | .alive id incarnation => m.alive id incarnation
  | .suspect id incarnation now => m.suspect id incarnation now
  | .dead id => m.dead id
  | .refuteSuspicion => m.refuteSuspicion
  | .tickSuspicions deadline => (m.tickSuspicions deadline).1
  | .merge gossip => m.merge gossip

section

variable (m : Membership I)

/-- The members after an entry has been written. -/
lemma members_put (mem : Member I) (id : I) :
    (m.put mem).members id = if mem.id = id then some mem else m.members id := by
  rw [put_members]
  split_ifs with h
  · rw [← h, Function.update_self]
  · rw [Function.update_of_ne (Ne.symm h)]

/-- The local member after an entry has been written. -/
lemma self_put (mem : Member I) : (m.put mem).self = if mem.id = m.selfID then mem else m.self := by
  have h := (m.put mem).members_selfID
  rw [members_put, put_selfID, m.members_selfID] at h
  split_ifs at h ⊢
  · exact (Option.some.inj h).symm
  · exact (Option.some.inj h).symm

end

end Membership

/-! ### Entries of other members -/

/-- The belief is not behind another one, and the same if that is a death. -/
structure Member.Ahead (cur new : Member I) : Prop where
  rank_le : cur.rank ≤ new.rank
  terminal : cur.state = .dead → new.rank = cur.rank

/-- Beliefs move ahead step by step. -/
lemma Member.Ahead.trans {a b c : Member I} (hab : a.Ahead b) (hbc : b.Ahead c) : a.Ahead c where
  rank_le := hab.rank_le.trans hbc.rank_le
  terminal ha := by
    have hb : b.state = .dead := by
      have hT := terminal_rank_iff.mpr ha
      rw [← hab.terminal ha] at hT
      exact terminal_rank_iff.mp hT
    rw [hbc.terminal hb, hab.terminal ha]

/-- The entry is new, or above one that is not a death. -/
def News (o : Option (Member I)) (new : Member I) : Prop :=
  ∀ cur, o = some cur → cur.state ≠ .dead ∧ cur.rank < new.rank

/-- News are ahead. -/
lemma News.ahead {new : Member I} (h : News (some cur) new) : cur.Ahead new where
  rank_le := (h cur rfl).2.le
  terminal hdead := absurd hdead (h cur rfl).1

/-- What a call can do to the entry of a member. -/
inductive Touch (op : Op I) : Option (Member I) → Option (Member I) → Prop where
  | same (o : Option (Member I)) : Touch op o o
  | settle (o : Option (Member I)) (new : Member I) (hstate : new.state ≠ .suspect)
      (hahead : ∀ cur, o = some cur → cur.Ahead new) : Touch op o (some new)
  | suspect (o : Option (Member I)) (new : Member I)
      (hop : op = .suspect new.id new.incarnation new.suspectedAt) (hnews : News o new) :
      Touch op o (some new)
  | merge (o : Option (Member I)) (new : Member I) (gossip : List (Member I))
      (hop : op = .merge gossip) (hzero : new.suspectedAt = 0) (hnews : News o new) :
      Touch op o (some new)

/-- The entry of an unknown member is news. -/
lemma News.unknown (new : Member I) : News none new := nofun

/-- An entry above a known one. -/
lemma News.known {new : Member I} (hdead : cur.state ≠ .dead) (hlt : cur.rank < new.rank) :
    News (some cur) new := by
  rintro _ ⟨⟩
  exact ⟨hdead, hlt⟩

/-- The entry of a member that is unknown, or was before. -/
lemma Touch.settled {op : Op I} {new : Member I} (hstate : new.state ≠ .suspect)
    (hahead : cur.Ahead new) : Touch op (some cur) (some new) := by
  refine .settle _ _ hstate ?_
  rintro _ ⟨⟩
  exact hahead

section touch

variable [DecidableEq I] {m m' : Membership I} {id : I} {op : Op I}

/-- What a call does that is not a tick, with at most one claim of gossip: nothing, or it writes the
entry of one member, of which `T` holds if that is not the local one. -/
inductive Effect (m : Membership I) (T : Option (Member I) → Member I → Prop) (id : I) :
    Membership I → Prop where
  | same : Effect m T id m
  | put (mem : Member I) (hmem : mem.id = id) (hother : id ≠ m.selfID → T (m.members id) mem)
      (hown : id = m.selfID → m.self.state ≠ .suspect → mem.state ≠ .suspect) :
      Effect m T id (m.put mem)

namespace Effect

variable {T : Option (Member I) → Member I → Prop} {id' : I}

section

variable (h : Effect m T id' m')

include h

/-- The local member stays the same one. -/
lemma selfID : m'.selfID = m.selfID := by
  cases h <;> rfl

/-- Members other than the local one. -/
lemma members (hid : id ≠ m.selfID) :
    m'.members id = m.members id ∨ ∃ new, m'.members id = some new ∧ T (m.members id) new := by
  cases h with
  | same => exact .inl rfl
  | put mem hmem hother =>
    rw [Membership.members_put]
    split_ifs with heq
    · obtain rfl : id' = id := hmem.symm.trans heq
      exact .inr ⟨mem, rfl, hother hid⟩
    · exact .inl rfl

/-- The call is about another member. -/
lemma self_of_ne (hid : id' ≠ m.selfID) : m'.self = m.self := by
  cases h with
  | same => rfl
  | put mem hmem => rw [Membership.self_put, if_neg (hmem ▸ hid)]

/-- The local member does not come to suspect itself. -/
lemma self_not_suspect (hs : m.self.state ≠ .suspect) : m'.self.state ≠ .suspect := by
  cases h with
  | same => exact hs
  | put mem hmem _ hown =>
    rw [Membership.self_put]
    split_ifs with hid
    · exact hown (hmem.symm.trans hid) hs
    · exact hs

end

/-- Another member is touched as the call says. -/
lemma touch (h : Effect m (Touch op · <| some ·) id' m') (hid : id ≠ m.selfID) :
    Touch op (m.members id) (m'.members id) := by
  rcases h.members hid with hsame | ⟨new, hnew, htouch⟩
  · rw [hsame]
    exact .same _
  · rw [hnew]
    exact htouch

end Effect

/-- What is neither suspected nor dead is alive. -/
lemma precedence_eq_zero {s : MemberState} (hsuspect : s ≠ .suspect) (hdead : s ≠ .dead) :
    precedence s = 0 := by
  cases s with
  | alive => rfl
  | suspect => exact absurd rfl hsuspect
  | dead => exact absurd rfl hdead

/-- A refutation is an entry of the local member. -/
lemma effect_refuteSuspicion (m : Membership I) (T : Option (Member I) → Member I → Prop) :
    Effect m T m.selfID m.refuteSuspicion :=
  .put _ m.self_id (absurd rfl) fun _ _ => nofun

/-- `Alive` settles the entry of a member. -/
lemma effect_alive (m : Membership I) (id : I) (incarnation : ℕ) :
    Effect m (Touch (.alive id incarnation) · <| some ·) id (m.alive id incarnation) := by
  unfold Membership.alive
  cases hcur : m.members id with
  | none => exact .put _ rfl (fun _ => .settle _ _ nofun (by simp [hcur])) fun _ _ => nofun
  | some cur =>
    dsimp only
    split_ifs with hdead hlt hsame
    · exact .same
    · exact .same
    · exact .same
    · refine .put _ (m.id_eq id cur hcur) (fun _ => ?_) fun _ _ => nofun
      rw [hcur]
      refine .settled nofun ⟨?_, fun h => absurd h hdead⟩
      have hle := precedence_le cur.state
      have hzero : incarnation = cur.incarnation → precedence cur.state = 0 :=
        fun heq => precedence_eq_zero (fun hstate => hsame ⟨heq, hstate⟩) hdead
      show 1 + 3 * cur.incarnation + precedence cur.state ≤ 1 + 3 * incarnation + 0
      omega

/-- `Suspect` brings news about a member, unless it is the local one. -/
lemma effect_suspect (m : Membership I) (id : I) (incarnation : ℕ) (now : ℤ) :
    Effect m (Touch (.suspect id incarnation now) · <| some ·) id
      (m.suspect id incarnation now) := by
  unfold Membership.suspect
  split_ifs with hself
  · exact hself ▸ effect_refuteSuspicion m _
  cases hcur : m.members id with
  | none => exact .put _ rfl (fun _ => hcur ▸ .suspect _ _ rfl (.unknown _)) (absurd · hself)
  | some cur =>
    have hcurid := m.id_eq id cur hcur
    dsimp only
    split_ifs with hdead hlt hsame
    · exact .same
    · exact .same
    · exact .same
    · refine .put _ hcurid (fun _ => ?_) (absurd · hself)
      rw [hcur]
      refine .suspect _ _ (by rw [← hcurid]) (.known hdead ?_)
      have hle := precedence_le cur.state
      have hzero : incarnation = cur.incarnation → precedence cur.state = 0 :=
        fun heq => precedence_eq_zero (fun hstate => hsame ⟨hstate, heq⟩) hdead
      show 1 + 3 * cur.incarnation + precedence cur.state < 1 + 3 * incarnation + 1
      omega

/-- `Dead` settles the entry of a member. -/
lemma effect_dead (m : Membership I) (id : I) :
    Effect m (Touch (.dead id) · <| some ·) id (m.dead id) := by
  unfold Membership.dead
  cases hcur : m.members id with
  | none => exact .put _ rfl (fun _ => .settle _ _ nofun (by simp [hcur])) fun _ _ => nofun
  | some cur =>
    refine .put _ (m.id_eq id cur hcur) (fun _ => ?_) fun _ _ => nofun
    rw [hcur]
    refine .settled nofun ⟨Nat.add_le_add_left (precedence_le cur.state) _, fun hdead => ?_⟩
    unfold Member.rank
    rw [hdead]

/-- One claim of a gossip list is ignored, or is news. -/
lemma effect_mergeOne (m : Membership I) (g : Member I) :
    Effect m (fun o new => new.suspectedAt = 0 ∧ News o new) g.id (m.mergeOne g) := by
  unfold Membership.mergeOne
  split_ifs with hself
  · unfold Membership.mergeSelf
    rw [hself]
    split_ifs
    · exact .put _ m.self_id (absurd rfl) fun _ h => h
    · exact .same
    · exact .same
    · exact .put _ m.self_id (absurd rfl) fun _ _ => nofun
  cases hcur : m.members g.id with
  | none => exact .put _ rfl (fun _ => hcur ▸ ⟨rfl, .unknown _⟩) (absurd · hself)
  | some cur =>
    dsimp only
    split_ifs with hdead hwins
    · exact .same
    · refine .put _ (m.id_eq g.id cur hcur) (fun _ => ?_) (absurd · hself)
      exact ⟨rfl, hcur ▸ .known hdead (gossipWins_iff.mp hwins)⟩
    · exact .same

/-- A gossip list keeps the local id. -/
lemma merge_selfID (m : Membership I) (gs : List (Member I)) : (m.merge gs).selfID = m.selfID :=
  List.foldlRecOn (motive := (Membership.selfID · = m.selfID)) gs _ rfl fun _ ih g _ =>
    (effect_mergeOne _ g).selfID.trans ih

/-- Every call keeps the local id. -/
lemma apply_selfID (m : Membership I) (op : Op I) : (m.apply op).selfID = m.selfID := by
  cases op with
  | alive id incarnation => exact (effect_alive m id incarnation).selfID
  | suspect id incarnation now => exact (effect_suspect m id incarnation now).selfID
  | dead id => exact (effect_dead m id).selfID
  | refuteSuspicion | tickSuspicions => rfl
  | merge gossip => exact merge_selfID m gossip

/-- A tick settles the suspicions that have expired. -/
lemma touch_tickSuspicions (deadline : ℤ) :
    Touch op (m.members id) ((m.tickSuspicions deadline).1.members id) := by
  dsimp only [Membership.tickSuspicions]
  cases hcur : m.members id with
  | none => exact .same _
  | some cur =>
    rw [Option.map_some]
    split_ifs with hexpired
    · have hsuspect := (of_decide_eq_true hexpired).1
      refine .settled nofun ⟨Nat.add_le_add_left (precedence_le cur.state) _, fun hdead => ?_⟩
      simp [hdead] at hsuspect
    · exact .same _

/-- A gossip list is ignored, or is news. -/
lemma touch_merge (hid : id ≠ m.selfID) (gs : List (Member I)) :
    Touch (.merge gs) (m.members id) ((m.merge gs).members id) := by
  -- the entry is as it was, or there has been news
  have h : (m.merge gs).members id = m.members id ∨ ∃ new, (m.merge gs).members id = some new ∧
      new.suspectedAt = 0 ∧ News (m.members id) new := by
    unfold Membership.merge
    induction gs generalizing m with
    | nil => exact .inl rfl
    | cons g gs ih =>
      have heffect := effect_mergeOne m g
      have ih := ih (heffect.selfID ▸ hid)
      rw [List.foldl_cons]
      rcases heffect.members hid with hsame | ⟨mid, hmid, hzero, hnews⟩
      · rwa [← hsame]
      rcases ih with hsame | ⟨new, hnew, hzero', hnews'⟩
      · exact .inr ⟨mid, hsame.trans hmid, hzero, hnews⟩
      · refine .inr ⟨new, hnew, hzero', fun cur hcur => ⟨(hnews cur hcur).1, ?_⟩⟩
        exact (hnews cur hcur).2.trans (hnews' mid hmid).2
  rcases h with hsame | ⟨new, hnew, hzero, hnews⟩
  · rw [hsame]
    exact .same _
  · rw [hnew]
    exact .merge _ new gs rfl hzero hnews

/-- **What a call does to the entry of another member.** -/
theorem touch_apply (hid : id ≠ m.selfID) (op : Op I) :
    Touch op (m.members id) ((m.apply op).members id) := by
  cases op with
  | alive id' incarnation => exact (effect_alive m id' incarnation).touch hid
  | suspect id' incarnation now => exact (effect_suspect m id' incarnation now).touch hid
  | dead id' => exact (effect_dead m id').touch hid
  | refuteSuspicion => exact (effect_refuteSuspicion m _).touch hid
  | tickSuspicions deadline => exact touch_tickSuspicions deadline
  | merge gossip => exact touch_merge hid gossip

/-- A known member stays known, and the belief about it moves ahead. -/
lemma ahead_of_touch {o : Option (Member I)} (h : Touch op (some cur) o) :
    ∃ new, o = some new ∧ cur.Ahead new := by
  cases h with
  | same => exact ⟨cur, rfl, le_rfl, fun _ => rfl⟩
  | settle new _ hahead => exact ⟨new, rfl, hahead cur rfl⟩
  | suspect new _ hnews | merge new _ _ _ hnews => exact ⟨new, rfl, hnews.ahead⟩

/-- **Beliefs move ahead in every run.** -/
theorem ahead_run (hid : id ≠ m.selfID) (hcur : m.members id = some cur) (ops : List (Op I)) :
    ∃ new, (run Membership.apply m ops).members id = some new ∧ cur.Ahead new := by
  induction ops generalizing m cur with
  | nil => exact ⟨cur, hcur, le_rfl, fun _ => rfl⟩
  | cons op ops ih =>
    have htouch := touch_apply hid op
    rw [hcur] at htouch
    obtain ⟨mid, hmid, hahead⟩ := ahead_of_touch htouch
    obtain ⟨new, hnew, hahead'⟩ := ih (by rwa [apply_selfID]) hmid
    exact ⟨new, hnew, hahead.trans hahead'⟩

end touch

/-- **The view is monotone.** Whatever calls follow, a known member other than the local one stays
known; its incarnation does not decrease, nor does the severity of its state at the same
incarnation; and the state and the incarnation of a dead member do not change. -/
theorem view_monotone [DecidableEq I] (m : Membership I) (ops : List (Op I)) {id : I}
    (hid : id ≠ m.selfID) {cur : Member I} (hcur : m.members id = some cur) :
    ∃ new, (run Membership.apply m ops).members id = some new ∧
      (cur.incarnation < new.incarnation ∨
        cur.incarnation = new.incarnation ∧ precedence cur.state ≤ precedence new.state) ∧
      (cur.state = .dead → new.state = .dead ∧ new.incarnation = cur.incarnation) := by
  obtain ⟨new, hnew, hle, hterminal⟩ := ahead_run hid hcur ops
  refine ⟨new, hnew, ?_, fun hdead => ?_⟩
  · have hprec := precedence_le cur.state
    have hprec' := precedence_le new.state
    unfold Member.rank at hle
    omega
  · have heq := Member.rank_eq_iff.mp (hterminal hdead)
    rw [hdead, Prod.mk_inj] at heq
    exact heq

/-- A member that is suspected refutes this, is declared dead, and stays so. -/
theorem view_monotone_refuted :
    ∃ new, (run Membership.apply ((Membership.new 0).suspect 1 0 5)
        [.alive 1 1, .dead 1, .merge [⟨1, .alive, 7, 0⟩]]).members 1 = some new ∧
      (0 < new.incarnation ∨ 0 = new.incarnation ∧ precedence .suspect ≤ precedence new.state) ∧
      (MemberState.suspect = .dead → new.state = .dead ∧ new.incarnation = 0) := by
  have hcur : ((Membership.new 0).suspect 1 0 5).members 1 = some ⟨1, .suspect, 0, 5⟩ := by decide
  exact view_monotone ((Membership.new 0).suspect 1 0 5) _ (by decide) hcur

end Replication.Swim
