import Replication.Library.Run

/-!
# Lossy networks with links

Messages in flight stand in the order of sending; any of them may be delivered or lost at any time.

* `exists_run_of_simulation` — steps of one system that runs of another one match make up a run.
* `Net.InOrder` — a network keeps the order of its links if it delivers of each the oldest message
  first; `Net.exists_oldest` — that message can be taken.
-/

namespace Replication.Library

open List

/-- **The simulation rule**: what matches each step by a permitted run matches every run. -/
theorem exists_run_of_simulation {S T A B : Type*} {step : S → A → S} {step' : T → B → T}
    {P : T → B → Prop} (R : S → T → Prop)
    (hstep : ∀ s a t, R s t → ∃ bs, Along step' P t bs ∧ R (step s a) (run step' t bs))
    {s : S} {t : T} (h : R s t) (as : List A) :
    ∃ bs, Along step' P t bs ∧ R (run step s as) (run step' t bs) := by
  induction as generalizing s t with
  | nil => exact ⟨[], trivial, h⟩
  | cons a as ih =>
    obtain ⟨bs, hbs, hR⟩ := hstep s a t h
    obtain ⟨cs, hcs, hR'⟩ := ih hR
    refine ⟨bs ++ cs, along_append.mpr ⟨hbs, hcs⟩, ?_⟩
    rwa [run_append]

/-- What is seen of a network. -/
inductive NetEvent (M : Type) where
  | sent (m : M)
  | delivered (m : M)
  deriving DecidableEq, Repr

/-- What can happen in a network. -/
inductive NetAction (M : Type) where
  | send (m : M)
  | deliver (i : ℕ)
  | drop (i : ℕ)

/-- The messages in flight, and what was seen. -/
structure Net (M : Type) where
  flight : List M
  trace : List (NetEvent M)

namespace Net

variable {M L : Type} [DecidableEq L] {link : M → L} {k : L} {m : M}

/-- One step of a network. -/
def step (s : Net M) : NetAction M → Net M
  | .send m => ⟨s.flight ++ [m], s.trace ++ [.sent m]⟩
  | .deliver i =>
    match s.flight[i]? with
    | none => s
    | some m => ⟨s.flight.eraseIdx i, s.trace ++ [.delivered m]⟩
  | .drop i => { s with flight := s.flight.eraseIdx i }

/-- What is delivered is the oldest message of its link. -/
def InOrder (link : M → L) (s : Net M) : NetAction M → Prop
  | .deliver i => ∀ m ∈ s.flight[i]?, ∀ m' ∈ s.flight.take i, link m' ≠ link m
  | _ => True

/-- The messages that were sent, in order. -/
def sent (trace : List (NetEvent M)) : List M :=
  trace.filterMap fun | .sent m => some m | .delivered _ => none

/-- The messages that were delivered, in order. -/
def delivered (trace : List (NetEvent M)) : List M :=
  trace.filterMap fun | .sent _ => none | .delivered m => some m

/-- The messages of a link, in order. -/
def ofLink (link : M → L) (k : L) (ms : List M) : List M := ms.filter fun m => link m = k

/-- Those of a link, one part after the other. -/
lemma ofLink_append (ms ms' : List M) :
    ofLink link k (ms ++ ms') = ofLink link k ms ++ ofLink link k ms' :=
  filter_append ..

/-- One message is on its own link only. -/
lemma ofLink_singleton : ofLink link k [m] = if link m = k then [m] else [] := by
  simp [ofLink, filter_singleton]

/-- **The oldest message of a link** has a place before which there is no message of the link. -/
theorem exists_oldest {ms rest : List M} (h : ofLink link k ms = m :: rest) :
    ∃ i, ms[i]? = some m ∧ (∀ m' ∈ ms.take i, link m' ≠ link m) ∧
      ∀ k', ofLink link k' (ms.eraseIdx i) = if k' = k then rest else ofLink link k' ms := by
  obtain ⟨front, back, rfl, hfront, hm, hback⟩ := filter_eq_cons_iff.mp h
  have hm : link m = k := of_decide_eq_true hm
  have herase : (front ++ m :: back).eraseIdx front.length = front ++ back := by
    rw [eraseIdx_append_of_length_le (Nat.le_refl _), Nat.sub_self]
    rfl
  refine ⟨front.length, by simp, fun m' hm' => ?_, fun k' => ?_⟩
  · rw [take_left] at hm'
    simpa [hm] using hfront m' hm'
  · rw [herase, ofLink_append]
    split_ifs with hk
    · subst hk
      rw [← hback, ofLink, filter_eq_nil_iff.mpr hfront]
      rfl
    · rw [ofLink_append, ofLink, ofLink, ofLink, filter_cons_of_neg]
      simpa [hm] using fun heq => hk heq.symm

end Net

end Replication.Library
