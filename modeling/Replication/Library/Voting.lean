import Mathlib.Order.WellFounded

/-!
# Library · Voting: agreement of numbered ballots

Voters cast votes in ballots that are numbered by a well-founded linear order. A value is chosen in
a ballot by a quorum, and quorums overlap.

* `Ballots` — a ballot has one value, and only justified values get votes.
-/

namespace Replication.Library

variable {ι β V : Type*} [LinearOrder β]

/-- All members of a quorum vote for the value in the ballot. -/
def Chosen (Vote : ι → β → V → Prop) (Quorum : List ι → Prop) (n : β) (v : V) : Prop :=
  ∃ Q, Quorum Q ∧ ∀ a ∈ Q, Vote a n v

/-- The members of some quorum have no votes in earlier ballots, or the value is that of a ballot
that is not before any of these votes. -/
def Justified (Vote : ι → β → V → Prop) (Quorum : List ι → Prop) (n : β) (v : V) : Prop :=
  ∃ Q, Quorum Q ∧
    ((∀ a ∈ Q, ∀ m w, Vote a m w → ¬m < n) ∨
      ∃ b k, Vote b k v ∧ k < n ∧ ∀ a ∈ Q, ∀ m w, Vote a m w → m < n → m ≤ k)

/-- Quorums overlap, a ballot has one value, and only justified values get votes. -/
structure Ballots (Vote : ι → β → V → Prop) (Quorum : List ι → Prop) : Prop where
  overlap : ∀ Q Q', Quorum Q → Quorum Q' → ∃ a ∈ Q, a ∈ Q'
  one_value : ∀ a b n v w, Vote a n v → Vote b n w → v = w
  justified : ∀ a n v, Vote a n v → Justified Vote Quorum n v

namespace Ballots

variable [WellFoundedLT β] {Vote : ι → β → V → Prop} {Quorum : List ι → Prop}

/-- **Once a value is chosen, later ballots have it.** -/
theorem eq_of_chosen (h : Ballots Vote Quorum) {n : β} {v : V} (hchosen : Chosen Vote Quorum n v)
    {m : β} (hle : n ≤ m) {b : ι} {w : V} (hvote : Vote b m w) : w = v := by
  obtain ⟨Q, hQ, hall⟩ := hchosen
  -- by induction on the ballot: its value is that of a ballot between the two
  induction m using WellFoundedLT.induction generalizing b w with
  | ind m ih =>
    rcases hle.eq_or_lt with rfl | hlt
    · obtain ⟨a, ha, -⟩ := h.overlap Q Q hQ hQ
      exact h.one_value b a n w v hvote (hall a ha)
    obtain ⟨Q', hQ', hjust⟩ := h.justified b m w hvote
    obtain ⟨a, ha, ha'⟩ := h.overlap Q Q' hQ hQ'
    have hearlier := hall a ha
    rcases hjust with hnone | ⟨b', k, hvote', hk, hlatest⟩
    · exact absurd hlt (hnone a ha' n v hearlier)
    · exact ih k hk (hlatest a ha' n v hearlier hlt) hvote'

/-- **Agreement.** -/
theorem agreement (h : Ballots Vote Quorum) {n m : β} {v w : V} (hn : Chosen Vote Quorum n v)
    (hm : Chosen Vote Quorum m w) : v = w := by
  have hvote : ∀ {k : β} {u : V}, Chosen Vote Quorum k u → ∃ b, Vote b k u := by
    rintro k u ⟨Q, hQ, hall⟩
    obtain ⟨a, ha, -⟩ := h.overlap Q Q hQ hQ
    exact ⟨a, hall a ha⟩
  obtain ⟨a, ha⟩ := hvote hn
  obtain ⟨b, hb⟩ := hvote hm
  rcases le_total n m with hle | hle
  · exact (h.eq_of_chosen hn hle hb).symm
  · exact h.eq_of_chosen hm hle ha

end Ballots

end Replication.Library
