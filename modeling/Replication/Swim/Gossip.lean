import Mathlib.Data.Prod.Basic
import Replication.Library.Terminal
import Replication.Swim.Membership

/-!
# Swim · Gossip: does gossip converge?

Views that merge the same claims, in different orders, with repetitions and cut into lists in
different ways. A claim is placed in one order, the incarnation first and then the severity of the
state; merging a claim about another member keeps the greater one, but a dead member is terminal.
-/

namespace Replication.Swim

open Library

variable {I : Type}

/-! ### The order of claims -/

/-- The place of a claim: the incarnation, then the state. -/
def Member.rank (g : Member I) : ℕ := 1 + 3 * g.incarnation + precedence g.state

/-- The place of a belief; an unknown member is below all claims. -/
def Membership.rank (m : Membership I) (id : I) : ℕ := ((m.members id).map Member.rank).getD 0

/-- The place is that of a death. -/
def Terminal (r : ℕ) : Prop := 0 < r ∧ r % 3 = 0

instance : DecidablePred Terminal := fun _ => inferInstanceAs (Decidable (_ ∧ _))

/-- There are three states. -/
lemma precedence_le (s : MemberState) : precedence s ≤ 2 := by
  cases s <;> decide

/-- States differ in severity. -/
lemma precedence_injective : Function.Injective precedence := by
  intro s t h
  cases s <;> cases t <;> first | rfl | exact absurd h (by decide)

/-- The places of deaths are terminal. -/
lemma terminal_rank_iff {g : Member I} : Terminal g.rank ↔ g.state = .dead := by
  unfold Terminal Member.rank
  cases g.state <;> simp only [precedence, reduceCtorEq, iff_false, iff_true] <;> omega

/-- Gossip wins from a higher place. -/
lemma gossipWins_iff {cur g : Member I} : gossipWins cur g = true ↔ cur.rank < g.rank := by
  have hcur := precedence_le cur.state
  have hg := precedence_le g.state
  unfold gossipWins Member.rank
  split_ifs with h₁ h₂
  · simp only [true_iff]
    omega
  · simp only [false_iff]
    omega
  · rw [decide_eq_true_eq]
    omega

/-- The place says the state and the incarnation. -/
lemma Member.rank_eq_iff {g g' : Member I} :
    g.rank = g'.rank ↔ (g.state, g.incarnation) = (g'.state, g'.incarnation) := by
  have hg := precedence_le g.state
  have hg' := precedence_le g'.state
  rw [Prod.mk_inj]
  unfold Member.rank
  constructor
  · intro h
    exact ⟨precedence_injective (by omega), by omega⟩
  · rintro ⟨hs, hi⟩
    rw [hs, hi]

/-- No claim is at the bottom. -/
lemma Member.rank_pos (g : Member I) : 0 < g.rank := by
  unfold Member.rank
  omega

/-- Equal beliefs are at the same place. -/
lemma belief_eq_iff {m m' : Membership I} {id : I} :
    m.belief id = m'.belief id ↔ m.rank id = m'.rank id := by
  unfold Membership.belief Membership.rank
  rcases m.members id with _ | g <;> rcases m'.members id with _ | g'
  · simp
  · simp [g'.rank_pos.ne]
  · simp [g.rank_pos.ne']
  · simp [Member.rank_eq_iff]

/-! ### Merging as a running maximum -/

section merge

variable [DecidableEq I] {m : Membership I}

/-- A claim keeps the local id. -/
lemma mergeOne_selfID (g : Member I) : (m.mergeOne g).selfID = m.selfID := by
  unfold Membership.mergeOne Membership.mergeSelf
  split_ifs <;> first | rfl | skip
  split
  · rfl
  · split_ifs <;> rfl

/-- The places after an entry has been written. -/
lemma rank_put (g : Member I) (id : I) :
    (m.put g).rank id = if g.id = id then g.rank else m.rank id := by
  unfold Membership.rank
  rw [Membership.put_members]
  split_ifs with h
  · rw [← h, Function.update_self]
    rfl
  · rw [Function.update_of_ne (Ne.symm h)]

/-- **One claim** moves the belief about its member up, unless it is dead. -/
theorem rank_mergeOne {id : I} (hid : id ≠ m.selfID) (g : Member I) :
    (m.mergeOne g).rank id =
      if g.id = id then keep Terminal (m.rank id) g.rank else m.rank id := by
  unfold Membership.mergeOne
  by_cases hself : g.id = m.selfID
  · have hne : ¬g.id = id := fun h => hid (h.symm.trans hself)
    have hne' : ¬m.self.id = id := fun h => hid (h.symm.trans m.self_id)
    rw [if_pos hself, if_neg hne]
    unfold Membership.mergeSelf
    split_ifs
    · rw [rank_put, if_neg hne']
    · rfl
    · rfl
    · rw [rank_put, if_neg hne']
  · rw [if_neg hself]
    cases hcur : m.members g.id with
    | none =>
      dsimp only
      rw [rank_put]
      by_cases h : g.id = id
      · have hzero : m.rank id = 0 := by simp [Membership.rank, ← h, hcur]
        rw [if_pos h, if_pos h, hzero, keep_of_not_terminal fun hT => absurd hT.1 (lt_irrefl 0)]
        exact (max_eq_right (Nat.zero_le _)).symm
      · rw [if_neg h, if_neg h]
    | some cur =>
      dsimp only
      have hrank : g.id = id → m.rank id = cur.rank := by
        intro h
        simp [Membership.rank, ← h, hcur]
      have hcurid := m.id_eq g.id cur hcur
      by_cases h : g.id = id
      · rw [if_pos h, hrank h]
        by_cases hdead : cur.state = .dead
        · rw [if_pos hdead, keep_of_terminal (terminal_rank_iff.mpr hdead), hrank h]
        rw [if_neg hdead, keep_of_not_terminal fun hT => hdead (terminal_rank_iff.mp hT)]
        split_ifs with hwins
        · rw [rank_put, if_pos (hcurid.trans h), max_eq_right (gossipWins_iff.mp hwins).le]
          rfl
        · rw [hrank h, max_eq_left (not_lt.mp fun hlt => hwins (gossipWins_iff.mpr hlt))]
      · rw [if_neg h]
        split_ifs
        · rfl
        · rw [rank_put, if_neg (hcurid ▸ h)]
        · rfl

/-- The places of the claims about a member. -/
def ranksOf (id : I) (gs : List (Member I)) : List ℕ := (gs.filter (·.id = id)).map Member.rank

/-- A place in the list is that of a claim. -/
lemma mem_ranksOf {id : I} {gs : List (Member I)} {r : ℕ} :
    r ∈ ranksOf id gs ↔ ∃ g ∈ gs, g.id = id ∧ g.rank = r := by
  simp [ranksOf, and_assoc]

/-- **A gossip list** is a running maximum that freezes at a dead member. -/
theorem rank_merge {id : I} (hid : id ≠ m.selfID) (gs : List (Member I)) :
    (m.merge gs).rank id = (ranksOf id gs).foldl (keep Terminal) (m.rank id) := by
  unfold Membership.merge
  induction gs generalizing m with
  | nil => rfl
  | cons g gs ih =>
    have hid' : id ≠ (m.mergeOne g).selfID := by
      rw [mergeOne_selfID]
      exact hid
    rw [List.foldl_cons, ih hid', rank_mergeOne hid]
    unfold ranksOf
    by_cases h : g.id = id
    · simp [h]
    · simp [h]

/-- Lists of gossip can be put together. -/
lemma foldl_merge (m : Membership I) (gss : List (List (Member I))) :
    gss.foldl Membership.merge m = m.merge gss.flatten := by
  unfold Membership.merge
  exact List.foldl_flatten.symm

end merge

/-! ### Convergence -/

/-- The claims about a member settle: the view has it as dead, or no claim of its death that is news
to the view is about an older incarnation than another claim. -/
def Membership.Settles (m : Membership I) (claims : List (Member I)) (id : I) : Prop :=
  (∃ cur, m.members id = some cur ∧ cur.state = .dead) ∨
    ∀ d ∈ claims, d.id = id → d.state = .dead →
      (∀ cur, m.members id = some cur → gossipWins cur d = true) →
      ∀ g ∈ claims, g.id = id → g.incarnation ≤ d.incarnation

section settles

variable {m : Membership I} {claims : List (Member I)} {id : I}

/-- A claim above a belief wins over it. -/
lemma rank_lt_iff {d : Member I} :
    m.rank id < d.rank ↔ ∀ cur, m.members id = some cur → gossipWins cur d = true := by
  unfold Membership.rank
  cases h : m.members id with
  | none => simp [d.rank_pos]
  | some => simp [gossipWins_iff]

/-- The place of a member that is known to be dead. -/
lemma terminal_rank_view_iff :
    Terminal (m.rank id) ↔ ∃ cur, m.members id = some cur ∧ cur.state = .dead := by
  unfold Membership.rank
  cases h : m.members id with
  | none => simp [Terminal]
  | some => simp [terminal_rank_iff]

/-- A death outranks the claims about its incarnation. -/
lemma rank_le_of_dead {d g : Member I} (hd : d.state = .dead) :
    g.rank ≤ d.rank ↔ g.incarnation ≤ d.incarnation := by
  have hg := precedence_le g.state
  have htwo : precedence d.state = 2 := by rw [hd]; rfl
  unfold Member.rank
  omega

/-- Settling, in terms of places. -/
lemma settles_iff [DecidableEq I] : m.Settles claims id ↔
    Terminal (m.rank id) ∨ ∀ d ∈ ranksOf id claims, Terminal d → m.rank id < d →
      ∀ g ∈ ranksOf id claims, g ≤ d := by
  unfold Membership.Settles
  rw [terminal_rank_view_iff]
  refine or_congr_right ⟨fun h r hr hT hlt r' hr' => ?_, fun h d hd hid hdead hnews g hg hgid => ?_⟩
  · obtain ⟨d, hd, hid, rfl⟩ := mem_ranksOf.mp hr
    obtain ⟨g, hg, hgid, rfl⟩ := mem_ranksOf.mp hr'
    have hdead := terminal_rank_iff.mp hT
    exact (rank_le_of_dead hdead).mpr (h d hd hid hdead (rank_lt_iff.mp hlt) g hg hgid)
  · exact (rank_le_of_dead hdead).mp (h d.rank (mem_ranksOf.mpr ⟨d, hd, hid, rfl⟩)
      (terminal_rank_iff.mpr hdead) (rank_lt_iff.mpr hnews) g.rank
      (mem_ranksOf.mpr ⟨g, hg, hgid, rfl⟩))

end settles

variable [DecidableEq I]

/-- **Gossip converges exactly if the claims settle.** Two views with the same knowledge merge the
same claims, in any orders, with repetitions and cut into lists in any way: they believe the same of
every member but the local ones in all cases, if and only if no claim of a death that is news to
them is older than another claim about the member. -/
theorem merge_converges_iff {m₁ m₂ : Membership I}
    (hsame : ∀ id, id ≠ m₁.selfID → id ≠ m₂.selfID → m₁.belief id = m₂.belief id)
    (claims : List (Member I)) :
    (∀ gss₁ gss₂ : List (List (Member I)), (∀ g, g ∈ gss₁.flatten ↔ g ∈ claims) →
      (∀ g, g ∈ gss₂.flatten ↔ g ∈ claims) → ∀ id, id ≠ m₁.selfID → id ≠ m₂.selfID →
        (gss₁.foldl Membership.merge m₁).belief id = (gss₂.foldl Membership.merge m₂).belief id) ↔
    ∀ id, id ≠ m₁.selfID → id ≠ m₂.selfID → m₁.Settles claims id := by
  constructor
  · intro h id h₁ h₂
    rw [settles_iff]
    by_contra hnot
    push Not at hnot
    obtain ⟨hT, r, hr, hTr, hlt, r', hr', hlt'⟩ := hnot
    obtain ⟨d, hd, hdid, rfl⟩ := mem_ranksOf.mp hr
    obtain ⟨g, hg, hgid, rfl⟩ := mem_ranksOf.mp hr'
    -- one view hears of the death first, the other one of the later incarnation
    have hmem : ∀ x ∈ claims, ∀ y, y ∈ [x :: claims].flatten ↔ y ∈ claims := by
      intro x hx y
      simp only [List.flatten_cons, List.flatten_nil, List.append_nil, List.mem_cons]
      exact ⟨fun h => h.elim (fun heq => heq ▸ hx) fun hy => hy, .inr⟩
    have heq := h [d :: claims] [g :: claims] (hmem d hd) (hmem g hg) id h₁ h₂
    rw [belief_eq_iff, foldl_merge, foldl_merge, rank_merge h₁, rank_merge h₂,
      ← belief_eq_iff.mp (hsame id h₁ h₂)] at heq
    have hfirst : ∀ x : Member I, x.id = id → ranksOf id [x :: claims].flatten =
        x.rank :: ranksOf id claims := by
      intro x hx
      simp [ranksOf, hx]
    rw [hfirst d hdid, hfirst g hgid, List.foldl_cons, List.foldl_cons, keep_of_not_terminal hT,
      keep_of_not_terminal hT, max_eq_right hlt.le, max_eq_right (hlt.trans hlt').le,
      foldl_keep_of_terminal hTr] at heq
    exact absurd hlt' (not_lt.mpr (heq ▸ le_foldl_keep _ _))
  · intro h gss₁ gss₂ hmem₁ hmem₂ id h₁ h₂
    rw [belief_eq_iff, foldl_merge, foldl_merge, rank_merge h₁, rank_merge h₂,
      ← belief_eq_iff.mp (hsame id h₁ h₂)]
    rcases settles_iff.mp (h id h₁ h₂) with hT | hsettles
    · rw [foldl_keep_of_terminal hT, foldl_keep_of_terminal hT]
    by_cases hT : Terminal (m₁.rank id)
    · rw [foldl_keep_of_terminal hT, foldl_keep_of_terminal hT]
    have hranks : ∀ gs : List (Member I), (∀ g, g ∈ gs ↔ g ∈ claims) →
        ∀ r, r ∈ ranksOf id gs ↔ r ∈ ranksOf id claims := by
      intro gs hgs r
      simp only [mem_ranksOf, hgs]
    refine foldl_keep_congr (fun r => ?_) hT fun d hd hTd hlt g hg => ?_
    · rw [hranks _ hmem₁, hranks _ hmem₂]
    · rw [hranks _ hmem₁] at hd hg
      exact hsettles d hd hTd hlt g hg

/-- Two nodes hear that a third one is suspected, that it refutes this, and that it fails later. -/
theorem merge_converges_refuted :
    (∀ id, id ≠ (Membership.new 0).selfID → id ≠ (Membership.new 1).selfID →
      (Membership.new 0).belief id = (Membership.new 1).belief id) ∧
    ∀ gss₁ gss₂ : List (List (Member ℕ)),
      (∀ g, g ∈ gss₁.flatten ↔ g ∈ [⟨2, .suspect, 0, 0⟩, ⟨2, .alive, 1, 0⟩, ⟨2, .dead, 1, 0⟩]) →
      (∀ g, g ∈ gss₂.flatten ↔ g ∈ [⟨2, .suspect, 0, 0⟩, ⟨2, .alive, 1, 0⟩, ⟨2, .dead, 1, 0⟩]) →
      (gss₁.foldl Membership.merge (.new 0)).belief 2 =
        (gss₂.foldl Membership.merge (.new 1)).belief 2 := by
  have hsame : ∀ id, id ≠ (Membership.new 0).selfID → id ≠ (Membership.new 1).selfID →
      (Membership.new 0).belief id = (Membership.new 1).belief id := by
    intro id h₀ h₁
    have h₀' : id ≠ 0 := h₀
    have h₁' : id ≠ 1 := h₁
    simp [Membership.belief, Membership.new, h₀', h₁']
  refine ⟨hsame, fun gss₁ gss₂ hmem₁ hmem₂ => ?_⟩
  refine (merge_converges_iff hsame _).mpr ?_ gss₁ gss₂ hmem₁ hmem₂ 2 (by decide) (by decide)
  intro id _ _
  refine .inr fun d hd _ hdead _ g hg _ => ?_
  simp only [List.mem_cons, List.not_mem_nil, or_false] at hd hg
  rcases hd with rfl | rfl | rfl
  · exact absurd hdead (by decide)
  · exact absurd hdead (by decide)
  · rcases hg with rfl | rfl | rfl <;> decide

/-- A death and a later incarnation: who hears of the death first keeps it, who hears of the later
incarnation first ignores it. -/
theorem merge_diverges :
    ((Membership.new 0).merge [⟨2, .dead, 0, 0⟩, ⟨2, .alive, 1, 0⟩]).belief 2 =
        some (.dead, 0) ∧
      ((Membership.new 0).merge [⟨2, .alive, 1, 0⟩, ⟨2, .dead, 0, 0⟩]).belief 2 =
        some (.alive, 1) := by
  decide

end Replication.Swim
