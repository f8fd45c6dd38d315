import Mathlib.Data.List.Sort
import Mathlib.Data.List.TakeWhile
import Mathlib.Order.Basic
import Mathlib.Tactic.SplitIfs
import Replication.Library.Run

/-!
# SimClock · VirtualClock: the deterministic clock

`internal/simclock/clock.go`. Logical time moves by `Advance` alone; `After` registers a timer, and
`Advance` fires those whose deadline it has crossed. Time is an integer without bounds here: the
sums of the code are taken not to overflow. The heap is the list of the pending timers in the order
in which `heap.Pop` returns them, which is that of `Less`; `container/heap` is taken to be correct.
-/

namespace Replication.SimClock

open Library List

/-- A pending registration; the channel of a timer is known by the sequence number. Source:
`clock.go` `virtualTimer`. -/
structure VirtualTimer where
  /-- The logical time at which it is due. -/
  deadline : ℤ
  /-- The number of registrations before it. -/
  seq : ℕ
  deriving DecidableEq, Repr

/-- Source: `clock.go` `timerHeap.Less`. -/
def VirtualTimer.less (a b : VirtualTimer) : Bool :=
  if a.deadline ≠ b.deadline then a.deadline < b.deadline else a.seq < b.seq

/-- A timer that has been served. -/
structure Delivery where
  /-- The sequence number of the timer. -/
  timer : ℕ
  time : ℤ
  deriving DecidableEq, Repr

/-- A timer fires with its deadline. Source: `clock.go` `Advance`. -/
def VirtualTimer.fire (t : VirtualTimer) : Delivery := ⟨t.seq, t.deadline⟩

/-- The times at which a timer has been served. -/
def sentOn (n : ℕ) (ds : List Delivery) : List ℤ := (ds.filter fun d => d.timer = n).map (·.time)

/-- `heap.Push`: a timer comes before those that it is `Less` than. -/
def push (t : VirtualTimer) (timers : List VirtualTimer) : List VirtualTimer :=
  timers.orderedInsert (fun a b => a.less b = true) t

/-- The loop of `Advance`: while the first timer is due, it is popped and fires. Source: `clock.go`
`Advance`. -/
def fireLoop (now : ℤ) : List VirtualTimer → List VirtualTimer × List Delivery
  | [] => ([], [])
  | t :: timers =>
    if t.deadline ≤ now then
      ((fireLoop now timers).1, t.fire :: (fireLoop now timers).2)
    else (t :: timers, [])

/-- The clock. The random source is left out. Source: `clock.go` `VirtualClock`. -/
structure VirtualClock where
  now : ℤ
  /-- The pending timers, in the order of `heap.Pop`. -/
  timers : List VirtualTimer
  seq : ℕ
  /-- What was sent on the channels of the timers so far. -/
  sent : List Delivery
  deriving DecidableEq, Repr

namespace VirtualClock

/-- Source: `clock.go` `NewVirtualClockAt`. -/
def newAt (start : ℤ) : VirtualClock := ⟨start, [], 0, []⟩

variable (c : VirtualClock)

/-- Register a timer; one that is due already is delivered at once, with the time of the clock.
Source: `clock.go` `after`. -/
def after (d : ℤ) : VirtualClock :=
  if c.now + d ≤ c.now then
    { c with seq := c.seq + 1, sent := c.sent ++ [⟨c.seq, c.now⟩] }
  else
    { c with seq := c.seq + 1, timers := push ⟨c.now + d, c.seq⟩ c.timers }

/-- Move the time and fire what is due; returns the number of timers fired. Source: `clock.go`
`Advance`. -/
def advance (d : ℤ) : VirtualClock × ℕ :=
  if d ≤ 0 then (c, 0)
  else
    ({ c with
        now := c.now + d
        timers := (fireLoop (c.now + d) c.timers).1
        sent := c.sent ++ (fireLoop (c.now + d) c.timers).2 },
      (fireLoop (c.now + d) c.timers).2.length)

end VirtualClock

/-! ### Runs -/

/-- A call of `After`, or of `Sleep` with a positive duration. -/
structure Registration where
  calledAt : ℤ
  duration : ℤ
  deriving DecidableEq, Repr

/-- The time at which the timer of a call is due. -/
def Registration.deadline (r : Registration) : ℤ := r.calledAt + r.duration

/-- The calls on a virtual clock. -/
inductive Action where
  | after (d : ℤ)
  | sleep (d : ℤ)
  | advance (d : ℤ)
  deriving DecidableEq, Repr

/-- A clock, and the registrations so far in their order. -/
structure Trace where
  clock : VirtualClock
  registered : List Registration
  deriving DecidableEq, Repr

namespace Trace

/-- A new clock without timers. -/
def newAt (start : ℤ) : Trace := ⟨.newAt start, []⟩

/-- Record the timer that is made. -/
def after (s : Trace) (d : ℤ) : Trace :=
  ⟨s.clock.after d, s.registered ++ [⟨s.clock.now, d⟩]⟩

/-- One call. `Sleep` returns at once for a duration that is not positive, and is `After` else. -/
def step (s : Trace) : Action → Trace
  | .after d => s.after d
  | .sleep d => if d ≤ 0 then s else s.after d
  | .advance d => { s with clock := (s.clock.advance d).1 }

end Trace

/-! ### The order of timers -/

namespace VirtualTimer

lemma less_iff {a b : VirtualTimer} :
    a.less b = true ↔ a.deadline < b.deadline ∨ a.deadline = b.deadline ∧ a.seq < b.seq := by
  unfold less
  split_ifs with h
  · rw [decide_eq_true_eq]
    omega
  · rw [decide_eq_true_eq]
    omega

lemma less_trans {a b c : VirtualTimer} (hab : a.less b = true) (hbc : b.less c = true) :
    a.less c = true := by
  rw [less_iff] at *
  omega

lemma less_of_not_less {a b : VirtualTimer} (hne : b.seq < a.seq) (h : ¬ a.less b = true) :
    b.less a = true := by
  rw [less_iff] at *
  omega

end VirtualTimer

lemma mem_push {t u : VirtualTimer} {timers : List VirtualTimer} :
    u ∈ push t timers ↔ u = t ∨ u ∈ timers :=
  mem_orderedInsert _

/-- **A later registration is pushed in order.** -/
theorem pairwise_push {t : VirtualTimer} {timers : List VirtualTimer}
    (h : timers.Pairwise fun a b => a.less b = true) (hseq : ∀ u ∈ timers, u.seq < t.seq) :
    (push t timers).Pairwise fun a b => a.less b = true := by
  induction timers with
  | nil => exact pairwise_singleton _ _
  | cons u timers ih =>
    obtain ⟨hu, hrest⟩ := pairwise_cons.mp h
    have hut := hseq u mem_cons_self
    unfold push at *
    by_cases hlt : t.less u = true
    · rw [orderedInsert_cons, if_pos hlt]
      refine pairwise_cons.mpr ⟨fun v hv => ?_, h⟩
      rcases mem_cons.mp hv with rfl | hv
      · exact hlt
      · exact VirtualTimer.less_trans hlt (hu v hv)
    · rw [orderedInsert_cons, if_neg hlt]
      refine pairwise_cons.mpr ⟨fun v hv => ?_, ih hrest fun v hv => ?_⟩
      · rcases mem_push.mp hv with rfl | hv
        · exact VirtualTimer.less_of_not_less hut hlt
        · exact hu v hv
      · exact hseq v (mem_cons_of_mem _ hv)

/-! ### The firing loop -/

/-- **The loop takes the due timers off the front.** -/
theorem fireLoop_eq (now : ℤ) (timers : List VirtualTimer) :
    fireLoop now timers =
      (timers.dropWhile fun t => t.deadline ≤ now,
        (timers.takeWhile fun t => t.deadline ≤ now).map VirtualTimer.fire) := by
  induction timers with
  | nil => rfl
  | cons t timers ih =>
    unfold fireLoop
    split_ifs with h
    · rw [ih]
      simp [h]
    · simp [h]

/-- **Two rounds are one.** The timers that are due by the first time and then by the second are
those that are due by the second, in the same order. -/
theorem fireLoop_fireLoop {now later : ℤ} (h : now ≤ later) (timers : List VirtualTimer) :
    fireLoop later timers =
      ((fireLoop later (fireLoop now timers).1).1,
        (fireLoop now timers).2 ++ (fireLoop later (fireLoop now timers).1).2) := by
  induction timers with
  | nil => rfl
  | cons t timers ih =>
    by_cases hdue : t.deadline ≤ now
    · have hnow : fireLoop now (t :: timers) =
          ((fireLoop now timers).1, t.fire :: (fireLoop now timers).2) := if_pos hdue
      have hlater : fireLoop later (t :: timers) =
          ((fireLoop later timers).1, t.fire :: (fireLoop later timers).2) :=
        if_pos (hdue.trans h)
      rw [hlater, hnow, ih]
      rfl
    · -- the first round leaves the list as it is
      have hnow : fireLoop now (t :: timers) = (t :: timers, []) := if_neg hdue
      rw [hnow]
      rfl

lemma lt_deadline_of_mem_dropWhile {now : ℤ} {timers : List VirtualTimer}
    (h : timers.Pairwise fun a b => a.less b = true) {t : VirtualTimer}
    (ht : t ∈ timers.dropWhile fun t => t.deadline ≤ now) : now < t.deadline := by
  induction timers with
  | nil => cases ht
  | cons u timers ih =>
    obtain ⟨hu, hrest⟩ := pairwise_cons.mp h
    rw [dropWhile_cons] at ht
    by_cases hdue : u.deadline ≤ now
    · rw [if_pos (decide_eq_true hdue)] at ht
      exact ih hrest ht
    rw [if_neg (by simpa using hdue)] at ht
    rcases mem_cons.mp ht with rfl | ht
    · exact not_le.mp hdue
    · have hless := VirtualTimer.less_iff.mp (hu t ht)
      omega

/-! ### What was sent -/

lemma sentOn_append (n : ℕ) (ds ds' : List Delivery) :
    sentOn n (ds ++ ds') = sentOn n ds ++ sentOn n ds' := by
  unfold sentOn
  rw [filter_append, map_append]

lemma sentOn_self (n : ℕ) (time : ℤ) : sentOn n [⟨n, time⟩] = [time] := by
  simp [sentOn]

lemma sentOn_eq_nil {n : ℕ} {ds : List Delivery} (h : ∀ d ∈ ds, d.timer ≠ n) :
    sentOn n ds = [] := by
  have hnone : (ds.filter fun d => d.timer = n) = [] :=
    filter_eq_nil_iff.mpr fun d hd => by simpa using h d hd
  rw [sentOn, hnone, map_nil]

lemma sentOn_perm (n : ℕ) {ds ds' : List Delivery} (h : ds.Perm ds') :
    (sentOn n ds).Perm (sentOn n ds') :=
  (h.filter _).map _

/-! ### The account of timers -/

/-- The account of a clock: what was sent, and what the pending timers will send. -/
def VirtualClock.account (c : VirtualClock) : List Delivery :=
  c.sent ++ c.timers.map VirtualTimer.fire

/-- Every registered timer is once in the account: as sent when it is due, and as pending before. -/
structure Accounts (s : Trace) : Prop where
  seq_eq : s.clock.seq = s.registered.length
  ordered : s.clock.timers.Pairwise fun a b => a.less b = true
  /-- A pending timer was registered and is not due. -/
  pending : ∀ t ∈ s.clock.timers, s.clock.now < t.deadline ∧
    ∃ r, s.registered[t.seq]? = some r ∧ r.deadline = t.deadline
  /-- A timer that was sent was registered and is due. -/
  sent : ∀ d ∈ s.clock.sent, ∃ r, s.registered[d.timer]? = some r ∧ r.deadline ≤ s.clock.now
  /-- Every registered timer is once in the account. -/
  once : ∀ n r, s.registered[n]? = some r →
    ∃ time, (sentOn n s.clock.account).Perm [time] ∧ (0 < r.duration → time = r.deadline)

lemma accounts_newAt (start : ℤ) : Accounts (.newAt start) where
  seq_eq := rfl
  ordered := List.Pairwise.nil
  pending := nofun
  sent := nofun
  once := fun _ _ hr => by cases hr

namespace Accounts

variable {s : Trace}

lemma sentOn_seq (h : Accounts s) : sentOn s.clock.seq s.clock.account = [] := by
  refine sentOn_eq_nil fun d hd hseq => ?_
  have hlt : d.timer < s.registered.length := by
    rcases mem_append.mp hd with hd | hd
    · obtain ⟨r, hr, -⟩ := h.sent d hd
      exact (List.getElem?_eq_some_iff.mp hr).1
    · obtain ⟨t, ht, rfl⟩ := mem_map.mp hd
      obtain ⟨-, r, hr, -⟩ := h.pending t ht
      exact (List.getElem?_eq_some_iff.mp hr).1
  rw [hseq, h.seq_eq] at hlt
  exact lt_irrefl _ hlt

lemma once_concat (h : Accounts s) {r : Registration} {t : ℤ} {account : List Delivery}
    (haccount : account.Perm (⟨s.clock.seq, t⟩ :: s.clock.account))
    (htime : 0 < r.duration → t = r.deadline) (n : ℕ) (r' : Registration)
    (hr' : (s.registered ++ [r])[n]? = some r') :
    ∃ time', (sentOn n account).Perm [time'] ∧ (0 < r'.duration → time' = r'.deadline) := by
  have hperm := sentOn_perm n haccount
  rw [← singleton_append, sentOn_append] at hperm
  rcases lt_trichotomy n s.registered.length with hn | rfl | hn
  · rw [getElem?_append_left hn] at hr'
    obtain ⟨time', hsent, htime'⟩ := h.once n r' hr'
    have hother : sentOn n [⟨s.clock.seq, t⟩] = [] := by
      refine sentOn_eq_nil fun d hd => ?_
      obtain rfl := mem_singleton.mp hd
      rw [h.seq_eq]
      exact hn.ne'
    rw [hother, nil_append] at hperm
    exact ⟨time', hperm.trans hsent, htime'⟩
  · rw [getElem?_concat_length, Option.some.injEq] at hr'
    subst hr'
    have hnew := h.sentOn_seq
    rw [h.seq_eq] at hnew hperm
    rw [hnew, append_nil, sentOn_self] at hperm
    exact ⟨t, hperm, htime⟩
  · rw [getElem?_eq_none (by simpa using Nat.succ_le_of_lt hn)] at hr'
    cases hr'

lemma getElem?_registered_concat {rs : List Registration} {n : ℕ} {r r' : Registration}
    (h : rs[n]? = some r) : (rs ++ [r'])[n]? = some r := by
  rw [getElem?_append_left (List.getElem?_eq_some_iff.mp h).1]
  exact h

section

variable (h : Accounts s)

include h

/-- **A registration**: delivered at once when it is due, pending otherwise. -/
theorem after (d : ℤ) : Accounts (s.after d) := by
  have hlast : (s.registered ++ [⟨s.clock.now, d⟩])[s.clock.seq]? = some ⟨s.clock.now, d⟩ := by
    rw [h.seq_eq, getElem?_concat_length]
  have hseq : s.clock.seq + 1 = (s.registered ++ [(⟨s.clock.now, d⟩ : Registration)]).length := by
    rw [length_append, length_singleton, h.seq_eq]
  have hpending : ∀ t ∈ s.clock.timers, s.clock.now < t.deadline ∧
      ∃ r, (s.registered ++ [⟨s.clock.now, d⟩])[t.seq]? = some r ∧ r.deadline = t.deadline := by
    intro t ht
    obtain ⟨hnow, r, hr, hdl⟩ := h.pending t ht
    exact ⟨hnow, r, getElem?_registered_concat hr, hdl⟩
  have hsent : ∀ x ∈ s.clock.sent, ∃ r,
      (s.registered ++ [⟨s.clock.now, d⟩])[x.timer]? = some r ∧ r.deadline ≤ s.clock.now := by
    intro x hx
    obtain ⟨r, hr, hdue⟩ := h.sent x hx
    exact ⟨r, getElem?_registered_concat hr, hdue⟩
  unfold Trace.after VirtualClock.after
  split_ifs with hdue
  · refine ⟨hseq, h.ordered, hpending, fun x hx => ?_, ?_⟩
    · rcases mem_append.mp hx with hx | hx
      · exact hsent x hx
      · obtain rfl := mem_singleton.mp hx
        exact ⟨_, hlast, hdue⟩
    · refine h.once_concat (t := s.clock.now) ?_ fun hpos => ?_
      · show (s.clock.sent ++ [_] ++ _).Perm _
        rw [append_assoc]
        exact perm_middle
      · exact absurd hpos (by dsimp only; omega)
  · refine ⟨hseq, ?_, fun t ht => ?_, hsent, ?_⟩
    · refine pairwise_push h.ordered fun u hu => ?_
      obtain ⟨-, r, hr, -⟩ := h.pending u hu
      show u.seq < s.clock.seq
      rw [h.seq_eq]
      exact (List.getElem?_eq_some_iff.mp hr).1
    · rcases mem_push.mp ht with rfl | ht
      · exact ⟨not_le.mp hdue, _, hlast, rfl⟩
      · exact hpending t ht
    · refine h.once_concat (t := s.clock.now + d) ?_ fun _ => rfl
      have hpush : (push ⟨s.clock.now + d, s.clock.seq⟩ s.clock.timers).Perm
          (⟨s.clock.now + d, s.clock.seq⟩ :: s.clock.timers) := perm_orderedInsert _ _ _
      refine ((hpush.map VirtualTimer.fire).append_left s.clock.sent).trans ?_
      exact perm_middle

/-- **Moving the time**: what was pending and is due has been sent, and the account is the same. -/
theorem advance (d : ℤ) : Accounts { s with clock := (s.clock.advance d).1 } := by
  unfold VirtualClock.advance
  split_ifs with hd
  · exact h
  rw [fireLoop_eq]
  have hsplit := takeWhile_append_dropWhile
    (p := fun t : VirtualTimer => decide (t.deadline ≤ s.clock.now + d)) (l := s.clock.timers)
  refine ⟨h.seq_eq, h.ordered.sublist (dropWhile_sublist _), fun t ht => ?_, fun x hx => ?_,
    fun n r hr => ?_⟩
  · obtain ⟨-, hr⟩ := h.pending t ((dropWhile_sublist _).subset ht)
    exact ⟨lt_deadline_of_mem_dropWhile h.ordered ht, hr⟩
  · rcases mem_append.mp hx with hx | hx
    · obtain ⟨r, hr, hdue⟩ := h.sent x hx
      exact ⟨r, hr, by dsimp only; omega⟩
    · obtain ⟨t, ht, rfl⟩ := mem_map.mp hx
      obtain ⟨-, r, hr, hdl⟩ := h.pending t ((takeWhile_sublist _).subset ht)
      have hdue := mem_takeWhile_imp ht
      rw [decide_eq_true_eq, ← hdl] at hdue
      exact ⟨r, hr, hdue⟩
  · obtain ⟨time, hperm, htime⟩ := h.once n r hr
    refine ⟨time, ?_, htime⟩
    rw [VirtualClock.account, ← hsplit, map_append, ← append_assoc] at hperm
    exact hperm

lemma step (a : Action) : Accounts (s.step a) := by
  cases a with
  | after d => exact h.after d
  | sleep d =>
    show Accounts (if d ≤ 0 then s else s.after d)
    split_ifs
    · exact h
    · exact h.after d
  | advance d => exact h.advance d

/-- **What the account says about one timer**: before its deadline nothing was sent, and from then
on one time was sent. -/
theorem sentOn_eq {n : ℕ} {r : Registration} (hr : s.registered[n]? = some r) :
    (s.clock.now < r.deadline → sentOn n s.clock.sent = []) ∧
      (r.deadline ≤ s.clock.now → ∃ time, sentOn n s.clock.sent = [time] ∧
        (0 < r.duration → time = r.deadline)) := by
  constructor
  · intro hlt
    refine sentOn_eq_nil fun d hd hn => ?_
    obtain ⟨r', hr', hdue⟩ := h.sent d hd
    rw [hn, hr, Option.some.injEq] at hr'
    subst hr'
    exact absurd hdue (not_le.mpr hlt)
  · intro hdue
    obtain ⟨time, hperm, htime⟩ := h.once n r hr
    have hnone : sentOn n (s.clock.timers.map VirtualTimer.fire) = [] := by
      refine sentOn_eq_nil fun d hd hn => ?_
      obtain ⟨t, ht, rfl⟩ := mem_map.mp hd
      obtain ⟨hlt, r', hr', hdl⟩ := h.pending t ht
      have hseq : t.seq = n := hn
      rw [hseq, hr, Option.some.injEq] at hr'
      subst hr'
      rw [← hdl] at hlt
      exact absurd hdue (not_le.mpr hlt)
    rw [VirtualClock.account, sentOn_append, hnone, append_nil] at hperm
    exact ⟨time, perm_singleton.mp hperm, htime⟩

end

end Accounts

lemma exists_advance_eq {s : Trace} (h : Accounts s) (d : ℤ) :
    ∃ fired : List VirtualTimer, (fired.Pairwise fun a b => a.less b = true) ∧
      (s.clock.advance d).1.sent = s.clock.sent ++ fired.map VirtualTimer.fire ∧
      (s.clock.advance d).2 = fired.length := by
  unfold VirtualClock.advance
  split_ifs with hd
  · exact ⟨[], List.Pairwise.nil, (append_nil _).symm, rfl⟩
  · rw [fireLoop_eq]
    exact ⟨_, h.ordered.sublist (takeWhile_sublist _), rfl, length_map _⟩

/-- **Two moves are one.** -/
theorem advance_advance (c : VirtualClock) {d₁ d₂ : ℤ} (h₁ : 0 < d₁) (h₂ : 0 < d₂) :
    ((c.advance d₁).1.advance d₂).1 = (c.advance (d₁ + d₂)).1 ∧
      (c.advance d₁).2 + ((c.advance d₁).1.advance d₂).2 = (c.advance (d₁ + d₂)).2 := by
  unfold VirtualClock.advance
  rw [if_neg (not_le.mpr h₁), if_neg (not_le.mpr h₂), if_neg (by omega)]
  dsimp only
  rw [← Int.add_assoc, fireLoop_fireLoop (show c.now + d₁ ≤ c.now + d₁ + d₂ by omega) c.timers]
  dsimp only
  rw [append_assoc, length_append]
  exact ⟨rfl, rfl⟩

/-- **The virtual clock is exact.** After any calls, from any start: a timer has been delivered
once if the time has reached its deadline and not at all before, with its deadline as the time if
its duration is positive; the next `Advance` fires timers in the order of deadline and registration;
and two of them fire the same timers, in the same order, and lead to the same state as one. -/
theorem virtual_clock_exact (start : ℤ) (as : List Action) :
    (∀ n r, (run Trace.step (.newAt start) as).registered[n]? = some r →
        ((run Trace.step (.newAt start) as).clock.now < r.deadline →
          sentOn n (run Trace.step (.newAt start) as).clock.sent = []) ∧
        (r.deadline ≤ (run Trace.step (.newAt start) as).clock.now →
          ∃ time, sentOn n (run Trace.step (.newAt start) as).clock.sent = [time] ∧
            (0 < r.duration → time = r.deadline))) ∧
      (∀ d, ∃ fired : List VirtualTimer, (fired.Pairwise fun a b => a.less b = true) ∧
        ((run Trace.step (.newAt start) as).clock.advance d).1.sent =
          (run Trace.step (.newAt start) as).clock.sent ++ fired.map VirtualTimer.fire ∧
        ((run Trace.step (.newAt start) as).clock.advance d).2 = fired.length) ∧
      ∀ d₁ d₂, 0 < d₁ → 0 < d₂ →
        (((run Trace.step (.newAt start) as).clock.advance d₁).1.advance d₂).1 =
          ((run Trace.step (.newAt start) as).clock.advance (d₁ + d₂)).1 ∧
        ((run Trace.step (.newAt start) as).clock.advance d₁).2 +
          (((run Trace.step (.newAt start) as).clock.advance d₁).1.advance d₂).2 =
          ((run Trace.step (.newAt start) as).clock.advance (d₁ + d₂)).2 := by
  have h : Accounts (run Trace.step (.newAt start) as) :=
    run_invariant' Accounts (fun _ a hs => hs.step a) as (accounts_newAt start)
  refine ⟨fun n r hr => h.sentOn_eq hr, exists_advance_eq h, fun d₁ d₂ h₁ h₂ => ?_⟩
  exact advance_advance _ h₁ h₂

/-- Three timers, two of them with one deadline, and a sleep of no length. -/
private def threeTimers : List Action :=
  [.after 20, .sleep 0, .after 10, .after 20, .after (-3), .advance 15]

/-- Timers with one deadline fire in the order they were made. -/
theorem virtual_clock_exact_threeTimers :
    (run Trace.step (.newAt 100) threeTimers).clock.sent = [⟨3, 100⟩, ⟨1, 110⟩] ∧
      ((run Trace.step (.newAt 100) threeTimers).clock.advance 5).1.sent =
        [⟨3, 100⟩, ⟨1, 110⟩, ⟨0, 120⟩, ⟨2, 120⟩] ∧
      (∃ time, sentOn 1 (run Trace.step (.newAt 100) threeTimers).clock.sent = [time] ∧
        (0 < (10 : ℤ) → time = 110)) ∧
      (((run Trace.step (.newAt 100) threeTimers).clock.advance 2).1.advance 3).1 =
        ((run Trace.step (.newAt 100) threeTimers).clock.advance (2 + 3)).1 := by
  have h := virtual_clock_exact 100 threeTimers
  refine ⟨by decide, by decide, (h.1 1 ⟨100, 10⟩ (by decide)).2 (by decide), ?_⟩
  exact (h.2.2 2 3 (by decide) (by decide)).1

end Replication.SimClock
