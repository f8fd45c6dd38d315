import Replication.Paxos.Propose

/-!
# Paxos · Atomic: a proposal in one go

`Propose` over the acceptors as the loop runs when nobody else talks to them, and that this is what
the call of `Propose` comes to that is not interrupted.

* `prepareAll`, `acceptAll` — the two loops, `Proposer.propose` — the function.
-/

namespace Replication.Paxos

open Library Function List

variable {I V : Type}

/-! ### The loops -/

/-- The local variables of phase 1. Source: `paxos.go` `Propose`. -/
structure Votes (V : Type) where
  promises : ℕ
  chosenV : Option V
  /-- The number of the adopted proposal. -/
  highestAcceptedN : ℕ
  deriving DecidableEq, Repr

/-- Count an answer to a prepare request, and adopt the accepted value with the highest number. -/
def Votes.count (votes : Votes V) (promised : Bool) (accN : ℕ) (accV : Option V) : Votes V :=
  if promised = false then votes
  else if accV ≠ none ∧ votes.highestAcceptedN < accN then ⟨votes.promises + 1, accV, accN⟩
  else { votes with promises := votes.promises + 1 }

/-- Phase 1: ask the acceptors one after the other to prepare. -/
def prepareAll (n : ℕ) : List (Acceptor V) → Votes V → List (Acceptor V) × Votes V
  | [], votes => ([], votes)
  | a :: as, votes =>
    let answer := a.prepare n
    let rest := prepareAll n as (votes.count answer.2.1 answer.2.2.1 answer.2.2.2)
    (answer.1 :: rest.1, rest.2)

/-- Phase 2: ask the acceptors one after the other to accept, and count those that do. -/
def acceptAll (n : ℕ) (v : Option V) : List (Acceptor V) → ℕ → List (Acceptor V) × ℕ
  | [], accepts => ([], accepts)
  | a :: as, accepts =>
    let answer := a.accept n v
    let rest := acceptAll n v as (if answer.2 then accepts + 1 else accepts)
    (answer.1 :: rest.1, rest.2)

/-- Both phases: the proposer and the acceptors after the call, and the chosen value if a majority
has accepted. Source: `paxos.go` `Propose`. -/
def Proposer.propose (p : Proposer) (acceptors : List (Acceptor V)) (v : Option V) :
    Proposer × List (Acceptor V) × Option (Option V) :=
  if acceptors.isEmpty then (p, acceptors, none)
  else
    let need := majority acceptors.length
    let next := p.nextProposalNumber
    let first := prepareAll next.2 acceptors ⟨0, v, 0⟩
    if first.2.promises < need then (next.1, first.1, none)
    else
      let second := acceptAll next.2 first.2.chosenV first.1 0
      if second.2 < need then (next.1, second.1, none)
      else (next.1, second.1, some first.2.chosenV)

/-! ### A call that is not interrupted -/

/-- What a call has gathered in phase 1. -/
def Call.votes (c : Call I V) : Votes V := ⟨c.promises, c.chosenV, c.highestAcceptedN⟩

/-- A call counts answers as the loop does. -/
lemma Call.prepared_eq (c : Call I V) (rest : List I) (promised : Bool) (accN : ℕ)
    (accV : Option V) :
    c.prepared rest promised accN accV =
      { c with
        promises := (c.votes.count promised accN accV).promises
        chosenV := (c.votes.count promised accN accV).chosenV
        highestAcceptedN := (c.votes.count promised accN accV).highestAcceptedN
        stage := .prepare rest } := by
  dsimp only [Call.prepared, Votes.count, Call.votes]
  split_ifs <;> rfl

/-- The call that was replaced. -/
lemma getElem?_set_call {calls : List (Call I V)} {c : ℕ} {call : Call I V}
    (hc : calls[c]? = some call) (call' : Call I V) : (calls.set c call')[c]? = some call' :=
  getElem?_set_self (List.getElem?_eq_some_iff.mp hc).1

section uninterrupted

variable [DecidableEq I] {acceptors todo rest : List I} {a : I} {s : State I V} {c : ℕ}
  {call : Call I V}

/-- A call that has returned stays as it is. -/
lemma run_done (hc : s.calls[c]? = some call) {chosen : Option (Option V)}
    (hstage : call.stage = .done chosen) (k : ℕ) :
    run (State.step acceptors) s (List.replicate k (.advance c)) = s := by
  induction k with
  | zero => rfl
  | succ k ih =>
    rw [replicate_succ, run_cons]
    simp only [State.step, hc, hstage, ih]

/-- The acceptors that are still to be asked are as they were. -/
lemma map_update_of_notMem {f : I → Acceptor V} (ha : a ∉ rest) (x : Acceptor V) :
    rest.map (update f a x) = rest.map f :=
  map_congr_left fun _ hb => update_of_ne (ne_of_mem_of_not_mem hb ha) _ _

/-- What a call comes to after its requests of phase 1. -/
lemma run_prepare (acceptors : List I) (hnodup : todo.Nodup) (hc : s.calls[c]? = some call)
    (hstage : call.stage = .prepare todo) :
    ∃ s', run (State.step acceptors) s (List.replicate todo.length (.advance c)) = s' ∧
      todo.map s'.acceptors = (prepareAll call.n (todo.map s.acceptors) call.votes).1 ∧
      (∀ b, b ∉ todo → s'.acceptors b = s.acceptors b) ∧
      ∃ call', s'.calls[c]? = some call' ∧ call'.stage = .prepare [] ∧ call'.n = call.n ∧
        call'.accepts = call.accepts ∧
        call'.votes = (prepareAll call.n (todo.map s.acceptors) call.votes).2 := by
  -- over the acceptors that are still to be asked: they are asked once each
  induction todo generalizing s call with
  | nil => exact ⟨s, rfl, rfl, fun _ _ => rfl, call, hc, hstage, rfl, rfl, rfl⟩
  | cons a rest ih =>
    obtain ⟨ha, hrest⟩ := nodup_cons.mp hnodup
    have hset : (s.prepare c call a rest).calls[c]? = some (call.prepared rest
        ((s.acceptors a).prepare call.n).2.1 ((s.acceptors a).prepare call.n).2.2.1
        ((s.acceptors a).prepare call.n).2.2.2) := getElem?_set_call hc _
    have hmap : rest.map (s.prepare c call a rest).acceptors = rest.map s.acceptors :=
      map_update_of_notMem ha _
    rw [Call.prepared_eq] at hset
    obtain ⟨s', hrun, hacc, hother, call', hc', hstage', hn, haccepts, hvotes⟩ :=
      ih hrest hset rfl
    refine ⟨s', ?_, ?_, fun b hb => ?_, call', hc', hstage', hn, haccepts, ?_⟩
    · rw [length_cons, replicate_succ, run_cons]
      simpa only [State.step, hc, hstage] using hrun
    · have hself : s'.acceptors a = ((s.acceptors a).prepare call.n).1 := by
        rw [hother a ha]
        exact update_self ..
      rw [map_cons, hself, hacc, hmap]
      rfl
    · rw [hother b fun h => hb (mem_cons_of_mem _ h)]
      exact update_of_ne (ne_of_not_mem_cons hb) _ _
    · rw [hvotes, hmap]
      rfl

/-- What a call comes to after its requests of phase 2. -/
lemma run_accept (acceptors : List I) (hnodup : todo.Nodup) (hc : s.calls[c]? = some call)
    (hstage : call.stage = .accept todo) :
    ∃ s', run (State.step acceptors) s (List.replicate todo.length (.advance c)) = s' ∧
      todo.map s'.acceptors =
        (acceptAll call.n call.chosenV (todo.map s.acceptors) call.accepts).1 ∧
      (∀ b, b ∉ todo → s'.acceptors b = s.acceptors b) ∧
      ∃ call', s'.calls[c]? = some call' ∧ call'.stage = .accept [] ∧
        call'.chosenV = call.chosenV ∧
        call'.accepts = (acceptAll call.n call.chosenV (todo.map s.acceptors) call.accepts).2 := by
  induction todo generalizing s call with
  | nil => exact ⟨s, rfl, rfl, fun _ _ => rfl, call, hc, hstage, rfl, rfl⟩
  | cons a rest ih =>
    obtain ⟨ha, hrest⟩ := nodup_cons.mp hnodup
    have hset : (s.accept c call a rest).calls[c]? = some (call.accepted rest
        ((s.acceptors a).accept call.n call.chosenV).2) :=
      getElem?_set_call hc _
    have hmap : rest.map (s.accept c call a rest).acceptors = rest.map s.acceptors :=
      map_update_of_notMem ha _
    obtain ⟨s', hrun, hacc, hother, call', hc', hstage', hchosen, haccepts⟩ := ih hrest hset rfl
    refine ⟨s', ?_, ?_, fun b hb => ?_, call', hc', hstage', hchosen, ?_⟩
    · rw [length_cons, replicate_succ, run_cons]
      simpa only [State.step, hc, hstage] using hrun
    · have hself : s'.acceptors a = ((s.acceptors a).accept call.n call.chosenV).1 := by
        rw [hother a ha]
        exact update_self ..
      rw [map_cons, hself, hacc, hmap]
      rfl
    · rw [hother b fun h => hb (mem_cons_of_mem _ h)]
      exact update_of_ne (ne_of_not_mem_cons hb) _ _
    · rw [haccepts, hmap]
      rfl

/-- The last of several advances. -/
lemma run_advance_succ (acceptors : List I) (s : State I V) (c k : ℕ) :
    run (State.step acceptors) s (List.replicate (k + 1) (.advance c)) =
      (run (State.step acceptors) s (List.replicate k (.advance c))).step acceptors
        (.advance c) := by
  rw [replicate_succ', run_append]
  rfl

/-- **A call that is not interrupted is the function.** Advanced to its end, a call leaves the
acceptors as `Proposer.propose` leaves them, and returns what it returns. -/
theorem run_advance_eq_propose (hnodup : acceptors.Nodup) (hne : acceptors ≠ []) {v : Option V}
    {p : Proposer} (hc : s.calls[c]? = some (Call.start acceptors v p.nextProposalNumber.2)) :
    ∃ s', run (State.step acceptors) s
        (List.replicate ((acceptors.length + 1) + (acceptors.length + 1)) (.advance c)) = s' ∧
      acceptors.map s'.acceptors = (p.propose (acceptors.map s.acceptors) v).2.1 ∧
      ∃ call', s'.calls[c]? = some call' ∧
        call'.stage = .done (p.propose (acceptors.map s.acceptors) v).2.2 := by
  have hnonempty : (acceptors.map s.acceptors).isEmpty = false := by
    rw [isEmpty_eq_false_iff]
    exact fun h => hne (map_eq_nil_iff.mp h)
  unfold Proposer.propose
  rw [hnonempty, if_neg Bool.false_ne_true, length_map, replicate_add, run_append,
    run_advance_succ acceptors s]
  -- phase 1
  obtain ⟨s₁, hrun₁, hacc₁, -, call₁, hc₁, hstage₁, hn₁, haccepts₁, hvotes₁⟩ :=
    run_prepare acceptors hnodup hc rfl
  replace hn₁ : call₁.n = p.nextProposalNumber.2 := hn₁
  replace haccepts₁ : call₁.accepts = 0 := haccepts₁
  simp only [hrun₁, State.step, hc₁, hstage₁]
  have hend₁ := getElem?_set_call hc₁ (call₁.endPrepare acceptors)
  dsimp only [Call.start, Call.votes] at hacc₁ hvotes₁ ⊢
  rw [← hacc₁, ← hvotes₁]
  by_cases hlt : call₁.promises < majority acceptors.length
  · have hend : call₁.endPrepare acceptors = { call₁ with stage := .done none } := if_pos hlt
    rw [hend] at hend₁ ⊢
    rw [if_pos hlt]
    exact ⟨_, run_done hend₁ rfl _, rfl, _, hend₁, rfl⟩
  · have hend : call₁.endPrepare acceptors = { call₁ with stage := .accept acceptors } :=
      if_neg hlt
    rw [hend] at hend₁ ⊢
    rw [if_neg hlt, run_advance_succ]
    -- phase 2
    obtain ⟨s₂, hrun₂, hacc₂, -, call₂, hc₂, hstage₂, hchosen₂, haccepts₂⟩ :=
      run_accept (s := { s₁ with calls := _ }) acceptors hnodup hend₁ rfl
    simp only [hrun₂, State.step, hc₂, hstage₂]
    have hend₂ := getElem?_set_call hc₂ (call₂.endAccept acceptors)
    dsimp only at hacc₂ haccepts₂ hchosen₂ ⊢
    rw [hn₁, haccepts₁] at hacc₂ haccepts₂
    rw [← hacc₂, ← haccepts₂, ← hchosen₂]
    refine ⟨_, rfl, ?_, _, hend₂, ?_⟩
    · split_ifs <;> rfl
    · unfold Call.endAccept
      split_ifs <;> rfl

/-- The second of three acceptors reports a value, which is adopted. -/
theorem run_advance_eq_propose_adopted :
    let p : Proposer := ⟨2, 1⟩
    let s : State ℕ ℕ := ⟨update (fun _ => .new) 1 ⟨65537, 65537, some 7⟩, [],
      [.start [0, 1, 2] (some 8) p.nextProposalNumber.2], []⟩
    let r := p.propose ([0, 1, 2].map s.acceptors) (some 8)
    r.2.2 = some (some 7) ∧
      ∃ s', run (State.step [0, 1, 2]) s (List.replicate 8 (.advance 0)) = s' ∧
        [0, 1, 2].map s'.acceptors = r.2.1 ∧
        ∃ call', s'.calls[0]? = some call' ∧ call'.stage = .done r.2.2 := by
  intro p s r
  exact ⟨by decide, run_advance_eq_propose (by decide) (by decide) rfl⟩

end uninterrupted

end Replication.Paxos
