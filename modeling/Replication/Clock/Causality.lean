import Mathlib.Data.Set.Function
import Mathlib.Logic.Relation
import Replication.Clock.HLC
import Replication.Library.Run

/-!
# Clock · Causality: stamps follow causality

Any number of hybrid clocks that are read, merge stamps and have their wall clocks skewed, in any
order and with any wall readings. A stamp that is merged may come from anywhere, from another clock
of the system in particular.

* `Clocks.step` — a call of `Now`, `Update` or `SetSkewMillis`; the stamps that the calls return are
  kept as a list of events.
* `HappensBefore` — the order of the calls of one clock, and from the call that returned a stamp to
  the calls that merge it.
-/

namespace Replication.Clock

open Library

variable {I : Type}

/-- A call that has returned a stamp. -/
structure Event (I : Type) where
  clock : I
  /-- The stamp that the call merged, if it was one of `Update`. -/
  received : Option ℤ
  stamp : ℤ
  deriving DecidableEq, Repr

/-- A call of a clock, with the wall clock it reads. -/
inductive Action (I : Type) where
  | now (i : I) (wallNanos : ℤ)
  | update (i : I) (wallNanos remote : ℤ)
  | setSkewMillis (i : I) (ms : ℤ)
  deriving DecidableEq, Repr

/-- Hybrid clocks, and the calls that returned stamps in their order. -/
structure Clocks (I : Type) where
  clocks : I → HLC
  events : List (Event I)

namespace Clocks

/-- New clocks, before any call. -/
def new : Clocks I := ⟨fun _ => .new, []⟩

variable [DecidableEq I]

/-- Record a call and what it leaves of its clock. -/
def call (s : Clocks I) (i : I) (received : Option ℤ) (r : HLC × ℤ) : Clocks I where
  clocks := Function.update s.clocks i r.1
  events := s.events ++ [⟨i, received, r.2⟩]

/-- One call on one of the clocks. -/
def step (s : Clocks I) : Action I → Clocks I
  | .now i t => s.call i none ((s.clocks i).now t)
  | .update i t remote => s.call i (some remote) ((s.clocks i).update t remote)
  | .setSkewMillis i ms =>
    { s with clocks := Function.update s.clocks i ((s.clocks i).setSkewMillis ms) }

/-- The physical parts of the stamps that a call works with are below `2 ^ 47 - 1`: the last stamp
of its clock, and the one that it merges. -/
def inRange (s : Clocks I) : Action I → Bool
  | .now i _ => (s.clocks i).lastPhysical < HLC.physicalBound
  | .update i _ remote =>
    (s.clocks i).lastPhysical < HLC.physicalBound ∧
      HLC.physicalMillis remote < HLC.physicalBound
  | .setSkewMillis _ _ => true

end Clocks

/-! ### Causality -/

/-- One event directly precedes another: it is an earlier call of the same clock, or the later call
merges the stamp that it returned. -/
def Precedes (events : List (Event I)) (i j : ℕ) : Prop :=
  ∃ e f, i < j ∧ events[i]? = some e ∧ events[j]? = some f ∧
    (e.clock = f.clock ∨ f.received = some e.stamp)

/-- Causality: what precedes an event in any number of steps. -/
def HappensBefore (events : List (Event I)) : ℕ → ℕ → Prop := Relation.TransGen (Precedes events)

section causality

variable {events : List (Event I)}

/-- If the stamps of every clock grow and an answer to a merge is above the merged stamp, stamps
grow along causality. -/
lemma stamp_lt_of_happensBefore
    (hclock : events.Pairwise fun e f => e.clock = f.clock → e.stamp < f.stamp)
    (hmerge : ∀ e ∈ events, ∀ r ∈ e.received, r < e.stamp) {i j : ℕ}
    (h : HappensBefore events i j) {e f : Event I} (he : events[i]? = some e)
    (hf : events[j]? = some f) : e.stamp < f.stamp := by
  have hdirect : ∀ {i j : ℕ} {e f : Event I}, Precedes events i j → events[i]? = some e →
      events[j]? = some f → e.stamp < f.stamp := by
    intro i j e f ⟨e', f', hij, he', hf', hcause⟩ he hf
    obtain rfl : e' = e := Option.some.inj (he'.symm.trans he)
    obtain rfl : f' = f := Option.some.inj (hf'.symm.trans hf)
    obtain ⟨hi, rfl⟩ := List.getElem?_eq_some_iff.mp he
    obtain ⟨hj, rfl⟩ := List.getElem?_eq_some_iff.mp hf
    rcases hcause with hsame | hreceived
    · exact List.pairwise_iff_getElem.mp hclock i j hi hj hij hsame
    · exact hmerge _ (List.getElem_mem hj) _ hreceived
  induction h generalizing f with
  | single hij => exact hdirect hij he hf
  | tail _ hjk ih =>
    obtain ⟨g, -, -, hg, -⟩ := id hjk
    exact (ih hg).trans (hdirect hjk hg hf)

end causality

/-! ### The invariant -/

/-- Clocks are well formed and not behind the stamps they have returned, and these are in order. -/
structure StampedInv (s : Clocks I) : Prop where
  valid : ∀ i, (s.clocks i).Valid
  le_value : ∀ e ∈ s.events, e.stamp ≤ (s.clocks e.clock).value
  increasing : s.events.Pairwise fun e f => e.clock = f.clock → e.stamp < f.stamp
  /-- An answer to a merge is above the merged stamp. -/
  merged : ∀ e ∈ s.events, ∀ r ∈ e.received, r < e.stamp

lemma stampedInv_new : StampedInv (Clocks.new : Clocks I) where
  valid := fun _ => HLC.valid_new
  le_value := nofun
  increasing := List.Pairwise.nil
  merged := nofun

section step

variable [DecidableEq I] {s : Clocks I}

/-- **A call that returns a stamp**: the new value of its clock, above the old one and above what it
merged. -/
theorem StampedInv.call (h : StampedInv s) {i : I} {received : Option ℤ} {r : HLC × ℤ}
    (hvalid : r.1.Valid) (hstamp : r.2 = r.1.value) (hlt : (s.clocks i).value < r.2)
    (hmerged : ∀ remote ∈ received, remote < r.2) : StampedInv (s.call i received r) := by
  have hold : ∀ e ∈ s.events, e.clock = i → e.stamp < r.2 := by
    intro e he hi
    have hle := h.le_value e he
    rw [hi] at hle
    exact hle.trans_lt hlt
  refine ⟨fun j => ?_, fun e he => ?_, ?_, fun e he => ?_⟩
  · unfold Clocks.call
    by_cases hj : j = i
    · subst hj
      simpa using hvalid
    · simpa [hj] using h.valid j
  · unfold Clocks.call at he ⊢
    rcases List.mem_append.mp he with he | he
    · by_cases hi : e.clock = i
      · simpa [hi, ← hstamp] using (hold e he hi).le
      · simpa [hi] using h.le_value e he
    · obtain rfl := List.mem_singleton.mp he
      simp [hstamp]
  · refine List.pairwise_append.mpr ⟨h.increasing, List.pairwise_singleton _ _, ?_⟩
    intro e he f hf hclock
    obtain rfl := List.mem_singleton.mp hf
    exact hold e he hclock
  · rcases List.mem_append.mp he with he | he
    · exact h.merged e he
    · obtain rfl := List.mem_singleton.mp he
      exact hmerged

/-- **One call keeps the stamps in order.** -/
theorem stampedInv_step {a : Action I} (hr : s.inRange a = true) (h : StampedInv s) :
    StampedInv (s.step a) := by
  cases a with
  | now i t =>
    have hrange : (s.clocks i).inRange t = true :=
      decide_eq_true ⟨of_decide_eq_true hr, (s.clocks i).wallPhysical_lt t⟩
    obtain ⟨hvalid, hstamp, hlt⟩ := HLC.now_spec (h.valid i) hrange
    exact h.call hvalid hstamp hlt fun _ hnone => absurd hnone (Option.not_mem_none _)
  | update i t remote =>
    obtain ⟨hlast, hrem⟩ := of_decide_eq_true hr
    obtain ⟨hvalid, hlt, hltr⟩ := HLC.update_spec (t := t) (h.valid i) remote
    have hstamp := HLC.update_stamp (t := t) (h.valid i) hlast hrem
    rw [← hstamp] at hlt hltr
    refine h.call hvalid hstamp hlt fun r hr => ?_
    obtain rfl := Option.mem_some.mp hr
    exact hltr
  | setSkewMillis i =>
    refine ⟨fun j => ?_, fun e he => ?_, h.increasing, h.merged⟩
    · unfold Clocks.step
      by_cases hj : j = i
      · subst hj
        simpa using ⟨(h.valid j).physical, (h.valid j).logical⟩
      · simpa [hj] using h.valid j
    · have hle := h.le_value e he
      unfold Clocks.step
      by_cases hi : e.clock = i
      · simpa [hi, HLC.setSkewMillis, HLC.value] using hle
      · simpa [hi] using hle

end step

/-! ### Runs -/

variable [DecidableEq I]

/-- **The clock condition.** Whatever the wall clocks show and however they are skewed, as long as
the physical parts of the stamps stay below `2 ^ 47 - 1`: the stamps of every clock grow, the answer
to a merge is above the merged stamp, stamps grow along causality, and the counters fit their
bits. -/
theorem clock_condition {as : List (Action I)}
    (h : Along Clocks.step (fun s a => s.inRange a = true) Clocks.new as) :
    (run Clocks.step Clocks.new as).events.Pairwise
        (fun e f => e.clock = f.clock → e.stamp < f.stamp) ∧
      (∀ e ∈ (run Clocks.step Clocks.new as).events, ∀ r ∈ e.received, r < e.stamp) ∧
      (∀ i j e f, HappensBefore (run Clocks.step Clocks.new as).events i j →
        (run Clocks.step Clocks.new as).events[i]? = some e →
        (run Clocks.step Clocks.new as).events[j]? = some f → e.stamp < f.stamp) ∧
      ∀ i, 0 ≤ ((run Clocks.step Clocks.new as).clocks i).logical ∧
        ((run Clocks.step Clocks.new as).clocks i).logical ≤ 65535 := by
  have hinv : StampedInv (run Clocks.step Clocks.new as) :=
    run_invariant StampedInv (fun _ _ hr hs => stampedInv_step hr hs) h stampedInv_new
  refine ⟨hinv.increasing, hinv.merged, ?_, fun i => (hinv.valid i).logical⟩
  intro i j e f hij he hf
  exact stamp_lt_of_happensBefore hinv.increasing hinv.merged hij he hf

/-- A clock whose wall clock lags behind merges a stamp and goes on. -/
private def exchange : List (Action Bool) :=
  [.now false 5000000, .setSkewMillis true (-3), .update true 1000000 327680, .now true 0]

/-- The lagging clock stamps after what it merged. -/
theorem clock_condition_exchange :
    Along Clocks.step (fun s a => s.inRange a = true) Clocks.new exchange ∧
      HappensBefore (run Clocks.step Clocks.new exchange).events 0 2 ∧
      ∀ e f, (run Clocks.step Clocks.new exchange).events[0]? = some e →
        (run Clocks.step Clocks.new exchange).events[2]? = some f → e.stamp < f.stamp := by
  have hrange : Along Clocks.step (fun s a => s.inRange a = true) Clocks.new exchange := by decide
  have hcause : HappensBefore (run Clocks.step Clocks.new exchange).events 0 2 := by
    refine .tail (b := 1) (.single ⟨⟨false, none, 327680⟩, ⟨true, some 327680, 327681⟩, ?_⟩)
      ⟨⟨true, some 327680, 327681⟩, ⟨true, none, 327682⟩, ?_⟩
    · decide
    · decide
  exact ⟨hrange, hcause, fun e f he hf => (clock_condition hrange).2.2.1 0 2 e f hcause he hf⟩

end Replication.Clock
