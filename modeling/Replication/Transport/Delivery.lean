import Replication.Transport.Fabric

/-!
# Transport · Delivery: what the fabric delivers

* `fabric_refines_network` — calls and workers make up a lossy network whose links keep the order.
* `account_step` — what a link has carried and what was sent on it grow by the same messages,
  unless there is a cause for a loss.
* `partition_isolates` — what crosses a partition was on its way before.
* `nothing_lost` — without faults, what is lost is counted.
-/

set_option linter.unusedSectionVars false

namespace Replication.Transport

open Library Function List Net

variable {I π μ : Type} [DecidableEq I] [DecidableEq π]

namespace System

variable {s : System I π μ} {a : Action I π μ} {m : Message I μ} {k : I × I}

/-! ### A network that keeps the order of its links -/

/-- A network that has the messages in flight of a fabric, and the same trace. -/
structure Tracks (s : System I π μ) (n : Net (Message I μ)) : Prop where
  flight : ∀ k, ofLink Message.link k n.flight = s.inFlight k
  trace : n.trace = s.trace

/-- **A step of the fabric** is a few steps of the network. -/
theorem tracks_step (s : System I π μ) (a : Action I π μ) (n : Net (Message I μ)) (h : Tracks s n) :
    ∃ bs, Along Net.step (InOrder Message.link) n bs ∧
      Tracks (s.step a) (run Net.step n bs) := by
  cases step_move s a with
  | quiet hflight htrace =>
    exact ⟨[], trivial, fun k => (h.flight k).trans (congrFun hflight k).symm,
      h.trace.trans htrace.symm⟩
  | refuse m hflight htrace =>
    refine ⟨[.send m, .drop n.flight.length], ⟨trivial, trivial, trivial⟩, fun k => ?_, ?_⟩
    · have herase : (n.flight ++ [m]).eraseIdx n.flight.length = n.flight := by
        rw [eraseIdx_append_of_length_le (Nat.le_refl _), Nat.sub_self]
        exact append_nil _
      simp only [run_cons, run_nil, Net.step, herase]
      exact (h.flight k).trans (congrFun hflight k).symm
    · rw [htrace, ← h.trace]
      rfl
  | enter m _ hflight htrace =>
    refine ⟨[.send m], ⟨trivial, trivial⟩, fun k => ?_, ?_⟩
    · simp only [run_cons, run_nil, Net.step, ofLink_append, ofLink_singleton, h.flight, hflight]
      by_cases hk : m.link = k
      · subst hk
        simp
      · rw [if_neg hk, append_nil, update_of_ne fun heq => hk heq.symm]
    · rw [htrace, ← h.trace]
      rfl
  | deliver k m rest hk hflight htrace =>
    obtain ⟨i, hi, hfirst, herase⟩ := exists_oldest ((h.flight k).trans hk)
    refine ⟨[.deliver i], ⟨fun m' hm' => ?_, trivial⟩, fun k' => ?_, ?_⟩
    · obtain rfl := Option.some.inj (hi.symm.trans hm')
      exact hfirst
    · simp only [run_cons, run_nil, Net.step, hi]
      rw [herase, hflight, h.flight, update_apply]
    · simp only [run_cons, run_nil, Net.step, hi]
      rw [htrace, h.trace]
  | lose k m rest hk hflight htrace =>
    obtain ⟨i, hi, hfirst, herase⟩ := exists_oldest ((h.flight k).trans hk)
    refine ⟨[.drop i], ⟨trivial, trivial⟩, fun k' => ?_, h.trace.trans htrace.symm⟩
    simp only [run_cons, run_nil, Net.step]
    rw [herase, hflight, h.flight, update_apply]

/-- Nothing is in flight in a new fabric. -/
lemma tracks_new (now : ℤ) : Tracks (new now : System I π μ) ⟨[], []⟩ := ⟨fun _ => rfl, rfl⟩

/-- **The fabric refines a lossy network**: every run of calls and workers has the trace of a run of
a network that may lose messages, and that delivers of each link the oldest message first. -/
theorem fabric_refines_network (now : ℤ) (as : List (Action I π μ)) :
    ∃ bs, Along Net.step (InOrder Message.link) ⟨[], []⟩ bs ∧
      (run Net.step ⟨[], []⟩ bs).trace = (run step (new now) as).trace := by
  obtain ⟨bs, hbs, htracks⟩ := exists_run_of_simulation Tracks tracks_step (tracks_new now) as
  exact ⟨bs, hbs, htracks.trace⟩

/-! ### What a link carries -/

/-- Messages are in flight on their own links. -/
def Linked (s : System I π μ) : Prop := ∀ k, ∀ m ∈ s.inFlight k, m.link = k

/-- What is in flight after a step was in flight or has just been sent. -/
lemma mem_inFlight_step (hm : m ∈ (s.step a).inFlight k) :
    m ∈ s.inFlight k ∨ m ∈ s.pending ∧ m.link = k := by
  have hsub : ∀ {k' rest m'}, s.inFlight k' = m' :: rest →
      m ∈ update s.inFlight k' rest k → m ∈ s.inFlight k := by
    intro k' rest m' hk' hm
    rw [update_apply] at hm
    split_ifs at hm with hk
    · subst hk
      exact hk' ▸ mem_cons_of_mem _ hm
    · exact hm
  cases step_move s a with
  | quiet hflight | refuse _ hflight => exact .inl (hflight ▸ hm)
  | enter m' hm' hflight =>
    rw [hflight, update_apply] at hm
    split_ifs at hm with hk
    · subst hk
      rcases mem_append.mp hm with hm | hm
      · exact .inl hm
      · obtain rfl := mem_singleton.mp hm
        exact .inr ⟨hm', rfl⟩
    · exact .inl hm
  | deliver _ _ _ hk' hflight | lose _ _ _ hk' hflight => exact .inl (hsub hk' (hflight ▸ hm))

/-- A step keeps every message on its own link. -/
lemma linked_step (s : System I π μ) (a : Action I π μ) (h : Linked s) : Linked (s.step a) := by
  intro k m hm
  rcases mem_inFlight_step hm with hm | hm
  · exact h k m hm
  · exact hm.2

/-- No message is on a wrong link in a new fabric. -/
lemma linked_new (now : ℤ) : Linked (new now : System I π μ) := nofun

/-- What was sent on a link. -/
def sentOn (s : System I π μ) (k : I × I) : List (Message I μ) :=
  ofLink Message.link k (sent s.trace)

/-- What a link has delivered, and then what is in flight on it. -/
def carried (s : System I π μ) (k : I × I) : List (Message I μ) :=
  ofLink Message.link k (delivered s.trace) ++ s.inFlight k

/-- **The account of a link**: what it has carried and what was sent on it grow by the same
messages, or there is a cause for a loss. -/
theorem account_step (h : Linked s) (a : Action I π μ) (k : I × I) :
    (∃ ms, (s.step a).sentOn k = s.sentOn k ++ ms ∧ (s.step a).carried k = s.carried k ++ ms) ∨
      Cause s a (s.step a) ∧ (s.sentOn k).Sublist ((s.step a).sentOn k) ∧
        ((s.step a).carried k).Sublist (s.carried k) := by
  unfold sentOn carried
  cases step_move s a with
  | quiet hflight htrace => exact .inl ⟨[], by simp [htrace], by simp [htrace, hflight]⟩
  | refuse m hflight htrace hwhy =>
    refine .inr ⟨hwhy, ?_, ?_⟩
    · simp [htrace, sent, filterMap_append, ofLink_append]
    · simp [htrace, hflight, delivered, filterMap_append]
  | enter m _ hflight htrace =>
    refine .inl ⟨ofLink Message.link k [m], ?_, ?_⟩
    · simp [htrace, sent, filterMap_append, ofLink_append]
    · rw [htrace, hflight, ofLink_singleton]
      by_cases hk : m.link = k
      · subst hk
        simp [delivered, filterMap_append]
      · rw [if_neg hk, update_of_ne fun heq => hk heq.symm]
        simp [delivered, filterMap_append]
  | deliver k' m rest hk' hflight htrace =>
    refine .inl ⟨[], by simp [htrace, sent, filterMap_append], ?_⟩
    -- the message goes from the front of what is in flight to the end of what is delivered
    have hm : m.link = k' := h k' m (hk' ▸ mem_cons_self)
    have hout : delivered (s.trace ++ [.delivered m]) = delivered s.trace ++ [m] :=
      filterMap_append ..
    rw [htrace, hflight, hout, ofLink_append, ofLink_singleton, append_nil]
    by_cases hk : m.link = k
    · obtain rfl := hm.symm.trans hk
      simp [hk', hm]
    · rw [if_neg hk, append_nil, update_of_ne fun heq => hk (hm.trans heq.symm)]
  | lose k' m rest hk' hflight htrace hwhy =>
    refine .inr ⟨hwhy, by rw [htrace], ?_⟩
    rw [htrace, hflight, append_sublist_append_left]
    by_cases hk : k = k'
    · subst hk
      simp [hk']
    · rw [update_of_ne hk]

/-- **Links keep the order**: what a link has delivered and what is in flight on it, in this order,
is a sublist of what was sent on it. -/
theorem link_delivers_in_order (now : ℤ) (as : List (Action I π μ)) (k : I × I) :
    ((run step (new now) as).carried k).Sublist ((run step (new now) as).sentOn k) := by
  refine (run_invariant' (fun s : System I π μ => Linked s ∧ (s.carried k).Sublist (s.sentOn k))
    (fun s a h => ⟨linked_step s a h.1, ?_⟩) as ⟨linked_new now, nil_sublist _⟩).2
  obtain ⟨hlinked, hsub⟩ := h
  rcases account_step hlinked a k with ⟨ms, hsent, hcarried⟩ | ⟨-, hsent, hcarried⟩
  · rw [hsent, hcarried]
    exact hsub.append_right ms
  · exact hcarried.trans (hsub.trans hsent)

/-! ### Partitions -/

/-- A message is in a call that has not returned, or in flight. -/
def OnTheWay (s : System I π μ) (m : Message I μ) : Prop := m ∈ s.pending ∨ m ∈ s.inFlight m.link

/-- What comes onto its way in a step has passed: its target is known, and no partition blocks
it. -/
lemma onTheWay_step (hm : OnTheWay (s.step a) m) : OnTheWay s m ∨
    (s.fabric.nodes m.targetID).isSome = true ∧ s.fabric.isPartitioned m.link = false := by
  rcases hm with hm | hm
  · rcases step_cases s a with ⟨c, rfl⟩ | ⟨m', lost, latencyMs, rfl⟩ | heffect
    · exact .inl (.inl hm)
    · cases hadm : s.fabric.admits m' lost with
      | false =>
        simp only [step, hadm] at hm
        exact .inl (.inl hm)
      | true =>
        simp only [step, hadm, pending, if_true, filterMap_append, mem_append] at hm
        rcases hm with hm | hm
        · exact .inl (.inl hm)
        · obtain rfl : m = m' := by simpa [SendCall.unsent] using hm
          simp only [NetworkFabric.admits, Bool.and_eq_true, Bool.not_eq_true'] at hadm
          exact .inr hadm.1
    · exact .inl (.inl (heffect.frame.pending hm))
  · exact .inl ((mem_inFlight_step hm).symm.imp_left And.left)

/-- What is delivered in a step is in flight before. -/
lemma trace_step (s : System I π μ) (a : Action I π μ) :
    ∃ seen, (s.step a).trace = s.trace ++ seen ∧
      ∀ m, .delivered m ∈ seen → ∃ k, m ∈ s.inFlight k := by
  cases step_move s a with
  | quiet _ htrace | lose _ _ _ _ _ htrace => exact ⟨[], by rw [htrace, append_nil], nofun⟩
  | refuse _ _ htrace | enter _ _ _ htrace => exact ⟨_, htrace, by simp⟩
  | deliver k m rest hk _ htrace =>
    refine ⟨_, htrace, fun m' hm' => ⟨k, ?_⟩⟩
    simp [hk, show m' = m by simpa using hm']

/-- **Partitions isolate**: while a partition stands, what is delivered across it was on its way
when it was set up, in a queue or in a call of `Send` that had been let through. -/
theorem partition_isolates (now : ℤ) (before after : List (Action I π μ)) (p : Partition I π)
    (hstands : Along step (fun s _ => p ∈ s.fabric.partitions) (run step (new now) before) after) :
    ∃ seen, (run step (new now) (before ++ after)).trace =
        (run step (new now) before).trace ++ seen ∧
      ∀ m, .delivered m ∈ seen → p.blocks m.link = true →
        OnTheWay (run step (new now) before) m := by
  rw [run_append]
  have hlinked := run_invariant' Linked linked_step before (linked_new now)
  generalize run step (new now) before = s₀ at hstands hlinked
  -- what is on its way across the partition was on its way at first
  refine (run_invariant (fun s => Linked s ∧
    (∀ m, p.blocks m.link = true → OnTheWay s m → OnTheWay s₀ m) ∧
    ∃ seen, s.trace = s₀.trace ++ seen ∧
      ∀ m, .delivered m ∈ seen → p.blocks m.link = true → OnTheWay s₀ m) ?_ hstands
    ⟨hlinked, fun _ _ h => h, [], (append_nil _).symm, nofun⟩).2.2
  rintro s a hp ⟨hlink, hway, seen, htrace, hseen⟩
  refine ⟨linked_step s a hlink, fun m hm hnew => ?_, ?_⟩
  · rcases onTheWay_step hnew with hold | ⟨-, hfree⟩
    · exact hway m hm hold
    · have hblocked : s.fabric.isPartitioned m.link = true := any_eq_true.mpr ⟨p, hp, hm⟩
      cases hblocked.symm.trans hfree
  · obtain ⟨more, hmore, hfrom⟩ := trace_step s a
    refine ⟨seen ++ more, by rw [hmore, htrace, append_assoc], fun m hm hcross => ?_⟩
    rcases mem_append.mp hm with hm | hm
    · exact hseen m hm hcross
    · obtain ⟨k, hk⟩ := hfrom m hm
      exact hway m hcross (.inr (hlink k m hk ▸ hk))

/-- A message that is in its queue when the partition is set up is delivered across it. -/
theorem partition_isolates_queued :
    let p : Partition ℕ ℕ := ⟨0, [0], [1]⟩
    let m : Message ℕ ℕ := ⟨0, 1, 7⟩
    let before := [.change (.register 1 ⟨0, 256⟩), .send m false 5, .advance 0, .advance 0,
      .advance 0, .advance 0, .tick 5000000, .change (.addPartition p)]
    let after := [.work m.link, .work m.link, .work m.link]
    (run step (new 0) (before ++ after)).trace = [.sent m, .delivered m] ∧
      p.blocks m.link = true ∧ OnTheWay (run step (new 0) before) m := by
  intro p m before after
  have htrace : (run step (new 0) (before ++ after)).trace = [.sent m, .delivered m] := by
    decide +kernel
  have hbefore : (run step (new 0) before).trace = [.sent m] := by decide +kernel
  obtain ⟨seen, hseen, hway⟩ := partition_isolates 0 before after p (by decide +kernel)
  rw [htrace, hbefore] at hseen
  obtain rfl : [.delivered m] = seen := by simpa using hseen
  exact ⟨htrace, rfl, hway m (mem_singleton_self _) rfl⟩

/-! ### Losses -/

/-- No message is refused, no node leaves and the fabric is not closed. -/
def faultless (s : System I π μ) : Action I π μ → Bool
  | .send m lost _ => s.fabric.admits m lost
  | .change (.deregister _) => false
  | .change .close => false
  | _ => true

/-- As long as nothing is shed, every message is delivered or in flight. -/
structure Whole (s : System I π μ) : Prop where
  closed : s.fabric.closed = false
  linked : Linked s
  known : ∀ m, OnTheWay s m → (s.fabric.nodes m.targetID).isSome = true
  kept : s.fabric.dropped = 0 → ∀ k, s.sentOn k = s.carried k

/-- A step without faults keeps the nodes. -/
lemma faultless_frame (ha : s.faultless a = true) :
    (∀ i, (s.fabric.nodes i).isSome = true → ((s.step a).fabric.nodes i).isSome = true) ∧
      (s.step a).fabric.closed = s.fabric.closed ∧
      s.fabric.dropped ≤ (s.step a).fabric.dropped := by
  rcases step_cases s a with ⟨c, rfl⟩ | ⟨m, lost, latencyMs, rfl⟩ | heffect
  · cases c with
    | register =>
      refine ⟨fun i hi => ?_, rfl, Nat.le_refl _⟩
      simp only [step, NetworkFabric.change, update_apply]
      split_ifs
      · rfl
      · exact hi
    | deregister | close => cases ha
    | _ => exact ⟨fun _ h => h, rfl, Nat.le_refl _⟩
  · unfold step
    dsimp only
    split <;> exact ⟨fun _ h => h, rfl, Nat.le_refl _⟩
  · obtain ⟨hnodes, hclosed, hdropped, -⟩ := heffect.frame
    exact ⟨fun i hi => hnodes ▸ hi, hclosed, hdropped⟩

/-- A step without faults keeps the account: a message that does not arrive has been shed. -/
lemma whole_step (s : System I π μ) (a : Action I π μ) (ha : s.faultless a = true) (h : Whole s) :
    Whole (s.step a) := by
  obtain ⟨hnodes, hclosed, hdropped⟩ := faultless_frame ha
  refine ⟨hclosed.trans h.closed, linked_step s a h.linked, fun m hm => hnodes _ ?_,
    fun hzero k => ?_⟩
  · rcases onTheWay_step hm with hm | hm
    · exact h.known m hm
    · exact hm.1
  · have hkept := h.kept (Nat.le_zero.mp (hzero ▸ hdropped)) k
    rcases account_step h.linked a k with ⟨ms, hsent, hcarried⟩ | ⟨hwhy, -, -⟩
    · rw [hsent, hcarried, hkept]
    -- none of the causes is left
    cases hwhy with
    | refused m lost latencyMs heq hadm =>
      subst heq
      cases ha.symm.trans hadm
    | closed hcl => cases h.closed.symm.trans hcl
    | unknown k' m hm hnone =>
      have hknown := h.known m (.inr (h.linked k' m hm ▸ hm))
      simp [hnone] at hknown
    | shed => omega

/-- **What is lost is counted**: in a run without faults after which `Dropped` is `0`, what was sent
on a link has been delivered, in this order, or is in flight. -/
theorem nothing_lost (now : ℤ) (as : List (Action I π μ))
    (hrun : Along step (fun s a => s.faultless a = true) (new now) as)
    (hzero : (run step (new now) as).fabric.dropped = 0) (k : I × I) :
    (run step (new now) as).sentOn k = (run step (new now) as).carried k := by
  have hnew : Whole (new now : System I π μ) := by
    refine ⟨rfl, linked_new now, fun m hm => ?_, fun _ _ => rfl⟩
    rcases hm with hm | hm <;> cases hm
  exact (run_invariant Whole whole_step hrun hnew).kept hzero k

/-- Two messages on a link, of which the later one was to arrive earlier. -/
theorem nothing_lost_late :
    let m (body : ℕ) : Message ℕ ℕ := ⟨0, 1, body⟩
    let s : System ℕ ℕ ℕ := run step (new 0) [.change (.register 1 ⟨0, 256⟩), .send (m 7) false 5,
      .send (m 8) false 1, .advance 0, .advance 0, .advance 0, .advance 0, .advance 1, .advance 1,
      .advance 1, .advance 1, .tick 5000000, .work (0, 1), .work (0, 1), .work (0, 1)]
    s.trace = [.sent (m 7), .sent (m 8), .delivered (m 7)] ∧
      s.sentOn (0, 1) = s.carried (0, 1) := by
  intro m s
  exact ⟨by decide +kernel, nothing_lost 0 _ (by decide +kernel) (by decide +kernel) (0, 1)⟩

end System

end Replication.Transport
