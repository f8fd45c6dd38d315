import Replication.Library.Quorum
import Replication.Library.Voting
import Replication.Paxos.Propose

/-!
# Paxos · Agreement: one value is chosen

Proposal numbers need not be unique: two proposers can have one id, and one can start again from
round zero. But an acceptor promises a number once, so that no two calls with one number get a
majority of promises, and only a call with a majority of promises asks for acceptances.

* `CallsInv` — calls against the answers they have got: the value of phase 2 is that of the latest
  proposal reported.
-/

namespace Replication.Paxos

open Library Function List

variable {I V : Type} {acceptors : List I} {s s' : State I V} {a : I} {c n : ℕ} {v : Option V}

/-! ### Steps -/

/-- The acceptors that have not been asked to prepare. -/
def Stage.todo : Stage I V → List I
  | .prepare todo => todo
  | _ => []

/-- Phase 1 is over. -/
def Stage.isPrepared : Stage I V → Bool
  | .prepare _ => false
  | _ => true

/-- A call goes on from a stage to another one without a new promise. -/
structure Stage.Next (acceptors : List I) (promises : ℕ) (stage stage' : Stage I V) : Prop where
  todo : stage'.todo.Sublist stage.todo
  prepared : stage.isPrepared = true → stage'.isPrepared = true
  /-- Phase 2 is entered with a majority of promises. -/
  majority : ∀ todo, stage' = .accept todo →
    majority acceptors.length ≤ promises ∨ ∃ todo', stage = .accept todo'

/-- A request of phase 2 leaves phase 1 as it is. -/
lemma Stage.Next.accept {promises : ℕ} {rest : List I} {stage : Stage I V}
    (hstage : stage = .accept (a :: rest)) : stage.Next acceptors promises (.accept rest) :=
  ⟨nil_sublist _, fun _ => rfl, fun _ _ => .inr ⟨a :: rest, hstage⟩⟩

section step

variable [DecidableEq I]

/-- What a step does to the acceptors, the calls and the answers. -/
inductive Move (acceptors : List I) (s : State I V) : State I V → Prop where
  | idle (proposers : List Proposer) : Move acceptors s { s with proposers := proposers }
  | start (proposers : List Proposer) (v : Option V) (n : ℕ) (hv : v ≠ none) (hn : 0 < n) :
      Move acceptors s
        { s with proposers := proposers, calls := s.calls ++ [Call.start acceptors v n] }
  | go (c : ℕ) (call : Call I V) (accepts : ℕ) (stage : Stage I V) (hc : s.calls[c]? = some call)
      (hnext : call.stage.Next acceptors call.promises stage) :
      Move acceptors s
        { s with calls := s.calls.set c { call with accepts := accepts, stage := stage } }
  | promise (c : ℕ) (call : Call I V) (a : I) (rest : List I) (hc : s.calls[c]? = some call)
      (hstage : call.stage = .prepare (a :: rest)) (hlt : (s.acceptors a).promisedN < call.n) :
      Move acceptors s
        { s with
          acceptors :=
            Function.update s.acceptors a { s.acceptors a with promisedN := call.n }
          calls := s.calls.set c
            (call.prepared rest true (s.acceptors a).acceptedN (s.acceptors a).acceptedV)
          history := s.history ++
            [.promise a c call.n (s.acceptors a).acceptedN (s.acceptors a).acceptedV] }
  | accept (c : ℕ) (call : Call I V) (a : I) (rest : List I) (hc : s.calls[c]? = some call)
      (hstage : call.stage = .accept (a :: rest)) (hle : (s.acceptors a).promisedN ≤ call.n) :
      Move acceptors s
        { s with
          acceptors := Function.update s.acceptors a ⟨call.n, call.n, call.chosenV⟩
          calls := s.calls.set c (call.accepted rest true)
          history := s.history ++ [.accept a c call.n call.chosenV] }

/-- Numbers of low rounds do not wrap around to zero. -/
lemma nextProposalNumber_pos {q : Proposer} (h : q.round + 1 < 281474976710656) :
    0 < q.nextProposalNumber.2 := by
  have hsize : UInt64.size = 18446744073709551616 := rfl
  unfold Proposer.nextProposalNumber
  rw [hsize]
  dsimp only
  omega

/-- **A step is a move.** -/
theorem move_step {a : Action V} (hadm : s.admissible a = true) :
    Move acceptors s (s.step acceptors a) := by
  unfold State.step
  cases a with
  | newProposer => exact .idle _
  | propose p v =>
    obtain ⟨hv, hround⟩ := of_decide_eq_true hadm
    dsimp only
    split
    · exact .idle s.proposers
    case h_2 q hq =>
      split_ifs
      · exact .idle s.proposers
      · exact .start _ v _ (Option.isSome_iff_ne_none.mp hv) (nextProposalNumber_pos (hround q hq))
  | advance c =>
    dsimp only
    split
    · exact .idle s.proposers
    case h_2 call hc =>
      split
      case h_1 a rest hstage =>
        unfold State.prepare Acceptor.prepare
        by_cases hlt : (s.acceptors a).promisedN < call.n
        · simp only [hlt, if_true]
          exact .promise c call a rest hc hstage hlt
        simp only [hlt, if_false, Bool.false_eq_true]
        rw [update_eq_self]
        refine .go c call _ _ hc ⟨?_, ?_, fun todo h => nomatch h⟩
        · rw [hstage]
          exact sublist_cons_self a rest
        · rw [hstage]
          exact fun h => absurd h Bool.false_ne_true
      case h_2 hstage =>
        unfold Call.endPrepare
        split_ifs with hlt
        · exact .go c call _ _ hc ⟨nil_sublist _, fun _ => rfl, fun todo h => nomatch h⟩
        · exact .go c call _ _ hc ⟨nil_sublist _, fun _ => rfl, fun _ _ => .inl (not_lt.mp hlt)⟩
      case h_3 a rest hstage =>
        unfold State.accept Acceptor.accept
        by_cases hle : (s.acceptors a).promisedN ≤ call.n
        · simp only [hle, if_true]
          exact .accept c call a rest hc hstage hle
        · simp only [hle, if_false, Bool.false_eq_true]
          rw [update_eq_self]
          exact .go c call _ _ hc (.accept hstage)
      case h_4 hstage =>
        unfold Call.endAccept
        split_ifs <;>
        exact .go c call _ _ hc ⟨nil_sublist _, fun _ => rfl, fun todo h => nomatch h⟩
      · exact .idle s.proposers

end step

/-! ### Acceptors -/

/-- Acceptors against the answers they have given. -/
structure AnswersInv (nodes : I → Acceptor V) (history : List (Answer I V)) : Prop where
  le : ∀ a, (nodes a).acceptedN ≤ (nodes a).promisedN
  origin : ∀ a, (nodes a).acceptedN = 0 ∧ (nodes a).acceptedV = none ∨
    ∃ c, .accept a c (nodes a).acceptedN (nodes a).acceptedV ∈ history
  promised : ∀ a c n accN accV, .promise a c n accN accV ∈ history → n ≤ (nodes a).promisedN
  accepted : ∀ a c n v, .accept a c n v ∈ history → n ≤ (nodes a).acceptedN
  below : ∀ a c n accN accV, .promise a c n accN accV ∈ history → accN < n
  /-- What is reported has been accepted. -/
  reported : ∀ a c n accN accV, .promise a c n accN accV ∈ history →
    accN = 0 ∧ accV = none ∨ ∃ c', .accept a c' accN accV ∈ history
  /-- Nothing between the report and the promise is accepted, at any time. -/
  latest : ∀ a c n accN accV, .promise a c n accN accV ∈ history →
    ∀ c' m w, .accept a c' m w ∈ history → m < n → m ≤ accN
  once : ∀ a c c' n accN accV accN' accV', .promise a c n accN accV ∈ history →
    .promise a c' n accN' accV' ∈ history → c = c'

section answers

variable {nodes : I → Acceptor V} {history : List (Answer I V)}

/-- Nobody has been asked anything. -/
lemma answersInv_new : AnswersInv (fun _ : I => (Acceptor.new : Acceptor V)) [] := by
  constructor <;> simp [Acceptor.new]

variable [DecidableEq I]

/-- **A promise** above all promises of the acceptor. -/
theorem AnswersInv.promise (h : AnswersInv nodes history) (hlt : (nodes a).promisedN < n) :
    AnswersInv (update nodes a { nodes a with promisedN := n })
      (history ++ [.promise a c n (nodes a).acceptedN (nodes a).acceptedV]) := by
  generalize hnodes : update nodes a { nodes a with promisedN := n } = nodes'
  have hnode : ∀ b, (nodes b).promisedN ≤ (nodes' b).promisedN ∧
      (nodes' b).acceptedN = (nodes b).acceptedN ∧ (nodes' b).acceptedV = (nodes b).acceptedV := by
    rw [← hnodes, forall_update_iff nodes fun b x => (nodes b).promisedN ≤ x.promisedN ∧
      x.acceptedN = (nodes b).acceptedN ∧ x.acceptedV = (nodes b).acceptedV]
    exact ⟨⟨hlt.le, rfl, rfl⟩, fun _ _ => ⟨le_rfl, rfl, rfl⟩⟩
  have hself : (nodes' a).promisedN = n := by simp [← hnodes]
  have hcases : ∀ {b c' m x y}, .promise b c' m x y ∈
      history ++ [.promise a c n (nodes a).acceptedN (nodes a).acceptedV] →
      .promise b c' m x y ∈ history ∨
        b = a ∧ c' = c ∧ m = n ∧ x = (nodes a).acceptedN ∧ y = (nodes a).acceptedV := by
    intro b c' m x y hmem
    simpa using hmem
  have haccept : ∀ {b c' m w}, .accept b c' m w ∈
      history ++ [.promise a c n (nodes a).acceptedN (nodes a).acceptedV] ↔
      .accept b c' m w ∈ history := by
    intro b c' m w
    simp
  refine ⟨fun b => ?_, fun b => ?_, fun b c' m x y hmem => ?_, fun b c' m v hmem => ?_,
    fun b c' m x y hmem => ?_, fun b c' m x y hmem => ?_, fun b c' m x y hmem c'' k w hacc hk => ?_,
    fun b c₁ c₂ m x y x' y' hmem hmem' => ?_⟩
  · rw [(hnode b).2.1]
    exact (h.le b).trans (hnode b).1
  · rw [(hnode b).2.1, (hnode b).2.2]
    exact (h.origin b).imp_right fun ⟨c', hc'⟩ => ⟨c', haccept.mpr hc'⟩
  · rcases hcases hmem with hold | ⟨rfl, -, rfl, -, -⟩
    · exact (h.promised b c' m x y hold).trans (hnode b).1
    · exact hself.ge
  · rw [(hnode b).2.1]
    exact h.accepted b c' m v (haccept.mp hmem)
  · rcases hcases hmem with hold | ⟨rfl, -, rfl, rfl, -⟩
    · exact h.below b c' m x y hold
    · exact (h.le b).trans_lt hlt
  · rcases hcases hmem with hold | ⟨rfl, -, -, rfl, rfl⟩
    · exact (h.reported b c' m x y hold).imp_right fun ⟨c'', hc''⟩ => ⟨c'', haccept.mpr hc''⟩
    · exact (h.origin b).imp_right fun ⟨c'', hc''⟩ => ⟨c'', haccept.mpr hc''⟩
  · rcases hcases hmem with hold | ⟨rfl, -, -, rfl, -⟩
    · exact h.latest b c' m x y hold c'' k w (haccept.mp hacc) hk
    · exact h.accepted b c'' k w (haccept.mp hacc)
  · -- the new number is above the old promises
    rcases hcases hmem with hold | ⟨rfl, rfl, rfl, -, -⟩
    · rcases hcases hmem' with hold' | ⟨rfl, -, rfl, -, -⟩
      · exact h.once b c₁ c₂ m x y x' y' hold hold'
      · exact absurd hlt (not_lt.mpr (h.promised b c₁ m x y hold))
    · rcases hcases hmem' with hold' | ⟨-, rfl, -, -, -⟩
      · exact absurd hlt (not_lt.mpr (h.promised b c₂ m x' y' hold'))
      · rfl

/-- **An acceptance** that breaks no promise of the acceptor. -/
theorem AnswersInv.accept (h : AnswersInv nodes history) (hle : (nodes a).promisedN ≤ n) :
    AnswersInv (update nodes a ⟨n, n, v⟩) (history ++ [.accept a c n v]) := by
  have hnode : ∀ b, (nodes b).promisedN ≤ (update nodes a ⟨n, n, v⟩ b).promisedN ∧
      (nodes b).acceptedN ≤ (update nodes a ⟨n, n, v⟩ b).acceptedN := by
    intro b
    by_cases hb : b = a
    · subst hb
      simpa using ⟨hle, (h.le b).trans hle⟩
    · simp [hb]
  have hcases : ∀ {b c' m w}, .accept b c' m w ∈ history ++ [.accept a c n v] →
      .accept b c' m w ∈ history ∨ b = a ∧ c' = c ∧ m = n ∧ w = v := by
    intro b c' m w hmem
    simpa using hmem
  have hpromise : ∀ {b c' m x y}, .promise b c' m x y ∈ history ++ [.accept a c n v] →
      .promise b c' m x y ∈ history := by
    intro b c' m x y hmem
    simpa using hmem
  refine ⟨fun b => ?_, fun b => ?_, fun b c' m x y hmem => ?_, fun b c' m w hmem => ?_,
    fun b c' m x y hmem => ?_, fun b c' m x y hmem => ?_, fun b c' m x y hmem c'' k w hacc hk => ?_,
    fun b c₁ c₂ m x y x' y' hmem hmem' => ?_⟩
  · by_cases hb : b = a
    · subst hb
      simp
    · simpa [hb] using h.le b
  · by_cases hb : b = a
    · subst hb
      exact .inr ⟨c, by simp⟩
    · rw [update_of_ne hb]
      exact (h.origin b).imp_right fun ⟨c', hc'⟩ => ⟨c', mem_append_left _ hc'⟩
  · exact (h.promised b c' m x y (hpromise hmem)).trans (hnode b).1
  · rcases hcases hmem with hold | ⟨rfl, -, rfl, -⟩
    · exact (h.accepted b c' m w hold).trans (hnode b).2
    · simp
  · exact h.below b c' m x y (hpromise hmem)
  · exact (h.reported b c' m x y (hpromise hmem)).imp_right fun ⟨c'', hc''⟩ =>
      ⟨c'', mem_append_left _ hc''⟩
  · rcases hcases hacc with hold | ⟨rfl, -, rfl, -⟩
    · exact h.latest b c' m x y (hpromise hmem) c'' k w hold hk
    · -- what is accepted now is not below the old promises
      exact absurd hk (not_lt.mpr ((h.promised b c' m x y (hpromise hmem)).trans hle))
  · exact h.once b c₁ c₂ m x y x' y' (hpromise hmem) (hpromise hmem')

/-- Acceptors and answers, over a step. -/
lemma answersInv_move (hmove : Move acceptors s s') (h : AnswersInv s.acceptors s.history) :
    AnswersInv s'.acceptors s'.history := by
  cases hmove with
  | idle | start | go => exact h
  | promise c call a rest hc hstage hlt => exact h.promise hlt
  | accept c call a rest hc hstage hle => exact h.accept hle

end answers

/-! ### Calls -/

/-- A call against the answers it has got; `P` are the values that have been proposed. -/
structure CallInv (acceptors : List I) (history : List (Answer I V)) (P : Option V → Prop) (c : ℕ)
    (call : Call I V) : Prop where
  pos : 0 < call.n
  v : call.v ≠ none
  todo : call.stage.todo.Nodup ∧ call.stage.todo ⊆ acceptors
  /-- The acceptors that have promised. -/
  promisers : ∃ Q : List I, Q.Nodup ∧ Q.length = call.promises ∧ Q ⊆ acceptors ∧
    (∀ a ∈ Q, a ∉ call.stage.todo) ∧
    ∀ a ∈ Q, ∃ accN accV, .promise a c call.n accN accV ∈ history
  majority : ∀ todo, call.stage = .accept todo → majority acceptors.length ≤ call.promises
  /-- The value of phase 2 is the proposed one or one that has been reported. -/
  adopted : call.highestAcceptedN = 0 ∧ call.chosenV = call.v ∨
    0 < call.highestAcceptedN ∧
      ∃ a, .promise a c call.n call.highestAcceptedN call.chosenV ∈ history
  highest : ∀ a n accN accV, .promise a c n accN accV ∈ history → accN ≤ call.highestAcceptedN
  chosen : P call.chosenV

namespace CallInv

variable {history history' : List (Answer I V)} {P P' : Option V → Prop} {c : ℕ}
  {call call' : Call I V}

section

variable (h : CallInv acceptors history P c call)

include h

/-- What others get does not matter to a call. -/
lemma mono (hsub : history ⊆ history')
    (hnew : ∀ a n x y, .promise a c n x y ∈ history' → .promise a c n x y ∈ history)
    (hP : ∀ v, P v → P' v) : CallInv acceptors history' P' c call := by
  obtain ⟨Q, hnodup, hlen, hQ, htodo, hpromise⟩ := h.promisers
  refine ⟨h.pos, h.v, h.todo, ⟨Q, hnodup, hlen, hQ, htodo, fun a ha => ?_⟩, h.majority, ?_, ?_,
    hP _ h.chosen⟩
  · obtain ⟨x, y, hxy⟩ := hpromise a ha
    exact ⟨x, y, hsub hxy⟩
  · exact h.adopted.imp_right fun ⟨hpos, a, ha⟩ => ⟨hpos, a, hsub ha⟩
  · exact fun a n x y hmem => h.highest a n x y (hnew a n x y hmem)

/-- A call goes on without a new promise. -/
lemma next {stage : Stage I V} (accepts : ℕ)
    (hnext : call.stage.Next acceptors call.promises stage) :
    CallInv acceptors history P c { call with accepts := accepts, stage := stage } := by
  obtain ⟨Q, hnodup, hlen, hQ, htodo, hpromise⟩ := h.promisers
  refine ⟨h.pos, h.v, ⟨h.todo.1.sublist hnext.todo, List.Subset.trans hnext.todo.subset h.todo.2⟩,
    ⟨Q, hnodup, hlen, hQ, fun a ha hmem => htodo a ha (hnext.todo.subset hmem), hpromise⟩,
    fun todo hstage => ?_, h.adopted, h.highest, h.chosen⟩
  rcases hnext.majority todo hstage with hmaj | ⟨todo', hstage'⟩
  · exact hmaj
  · exact h.majority todo' hstage'

/-- **A call that gets a promise.** -/
theorem promised {rest : List I} (hstage : call.stage = .prepare (a :: rest)) {accN : ℕ}
    {accV : Option V} (hreport : accN = 0 ∧ accV = none ∨ accV ≠ none ∧ P accV) :
    CallInv acceptors (history ++ [.promise a c call.n accN accV]) P c
      (call.prepared rest true accN accV) := by
  obtain ⟨Q, hnodup, hlen, hQ, htodo, hpromise⟩ := h.promisers
  obtain ⟨htodo₁, htodo₂⟩ := h.todo
  rw [hstage] at htodo htodo₁ htodo₂
  obtain ⟨hanot, hrest⟩ := nodup_cons.mp htodo₁
  obtain ⟨hamem, hrest'⟩ := cons_subset.mp htodo₂
  have hsub : history ⊆ history ++ [.promise a c call.n accN accV] := subset_append_left _ _
  have hQ' : ∃ Q : List I, Q.Nodup ∧ Q.length = call.promises + 1 ∧ Q ⊆ acceptors ∧
      (∀ b ∈ Q, b ∉ rest) ∧
      ∀ b ∈ Q, ∃ x y, .promise b c call.n x y ∈ history ++ [.promise a c call.n accN accV] := by
    refine ⟨a :: Q, ?_, ?_, ?_, ?_, ?_⟩
    · exact nodup_cons.mpr ⟨fun ha => htodo a ha mem_cons_self, hnodup⟩
    · rw [length_cons, hlen]
    · exact cons_subset.mpr ⟨hamem, hQ⟩
    · intro b hb hbrest
      rcases mem_cons.mp hb with rfl | hb
      · exact hanot hbrest
      · exact htodo b hb (mem_cons_of_mem a hbrest)
    · intro b hb
      rcases mem_cons.mp hb with rfl | hb
      · exact ⟨accN, accV, by simp⟩
      · obtain ⟨x, y, hxy⟩ := hpromise b hb
        exact ⟨x, y, hsub hxy⟩
  have hcases : ∀ b n x y, .promise b c n x y ∈ history ++ [.promise a c call.n accN accV] →
      .promise b c n x y ∈ history ∨ x = accN := by
    intro b n x y hmem
    rcases mem_append.mp hmem with hold | hnew
    · exact .inl hold
    · injection mem_singleton.mp hnew with _ _ _ hx _
      exact .inr hx
  unfold Call.prepared
  rw [if_neg Bool.true_eq_false.mp]
  split_ifs with hadopt
  · obtain ⟨hsome, hlt⟩ := hadopt
    have hP : P accV := (hreport.resolve_left fun hnone => hsome hnone.2).2
    refine ⟨h.pos, h.v, ⟨hrest, hrest'⟩, hQ', fun _ hstage' => (nomatch hstage'), ?_, ?_, hP⟩
    · exact .inr ⟨(Nat.zero_le _).trans_lt hlt, a, by simp⟩
    · intro b n x y hmem
      rcases hcases b n x y hmem with hold | rfl
      · exact (h.highest b n x y hold).trans hlt.le
      · exact le_rfl
  · refine ⟨h.pos, h.v, ⟨hrest, hrest'⟩, hQ', fun _ hstage' => (nomatch hstage'), ?_, ?_, h.chosen⟩
    · exact h.adopted.imp_right fun ⟨hpos, b, hb⟩ => ⟨hpos, b, hsub hb⟩
    · intro b n x y hmem
      rcases hcases b n x y hmem with hold | rfl
      · exact h.highest b n x y hold
      rcases hreport with ⟨hzero, -⟩ | ⟨hsome, -⟩
      · rw [hzero]
        exact Nat.zero_le _
      · exact not_lt.mp fun hlt => hadopt ⟨hsome, hlt⟩

end

end CallInv

/-- A value has been passed to `Propose`. -/
def State.Proposed (s : State I V) (v : Option V) : Prop := ∃ call ∈ s.calls, call.v = v

/-- All calls against all answers. -/
structure CallsInv (acceptors : List I) (s : State I V) : Prop where
  call : ∀ c call, s.calls[c]? = some call → CallInv acceptors s.history s.Proposed c call
  promise : ∀ a c n x y, .promise a c n x y ∈ s.history → c < s.calls.length
  /-- Acceptances are those of the proposals of calls that are past phase 1 with a majority. -/
  accept : ∀ a c n v, .accept a c n v ∈ s.history → ∃ call, s.calls[c]? = some call ∧
    call.n = n ∧ call.chosenV = v ∧ call.stage.isPrepared = true ∧
    majority acceptors.length ≤ call.promises

namespace CallsInv

/-- There are no calls at first. -/
lemma new (acceptors : List I) : CallsInv acceptors (State.new : State I V) := by
  constructor <;> simp [State.new]

/-- What an acceptor reports has been proposed. -/
lemma report (hcalls : CallsInv acceptors s) (hanswers : AnswersInv s.acceptors s.history)
    (a : I) : (s.acceptors a).acceptedN = 0 ∧ (s.acceptors a).acceptedV = none ∨
      (s.acceptors a).acceptedV ≠ none ∧ s.Proposed (s.acceptors a).acceptedV := by
  refine (hanswers.origin a).imp_right fun ⟨c, hc⟩ => ?_
  obtain ⟨call, hcall, -, hchosen, -, -⟩ := hcalls.accept _ _ _ _ hc
  obtain ⟨call', hmem, heq⟩ := (hcalls.call c call hcall).chosen
  obtain ⟨i, hi⟩ := getElem?_of_mem hmem
  rw [← hchosen]
  refine ⟨?_, call', hmem, heq⟩
  rw [← heq]
  exact (hcalls.call i call' hi).v

/-- A call keeps the value that it was made for. -/
lemma proposed_set {call call' : Call I V} (hc : s.calls[c]? = some call) (hv : call'.v = call.v)
    (h : s.Proposed v) : ∃ x ∈ s.calls.set c call', x.v = v := by
  obtain ⟨x, hx, rfl⟩ := h
  obtain ⟨i, hi⟩ := getElem?_of_mem hx
  by_cases hic : i = c
  · subst hic
    obtain rfl : call = x := Option.some.inj (hc.symm.trans hi)
    exact ⟨call', mem_set (List.getElem?_eq_some_iff.mp hc).1 call', hv⟩
  · refine ⟨x, mem_of_getElem? (i := i) ?_, rfl⟩
    rw [getElem?_set_ne (Ne.symm hic)]
    exact hi

/-- A call is replaced, and at most its own promises are new. -/
lemma set (h : CallsInv acceptors s) {call call' : Call I V} (hc : s.calls[c]? = some call)
    (hcalls : s'.calls = s.calls.set c call') (hv : call'.v = call.v) (hn : call'.n = call.n)
    (hprep : call.stage.isPrepared = true → call'.stage.isPrepared = true ∧
      call'.chosenV = call.chosenV ∧ call'.promises = call.promises)
    (hsub : s.history ⊆ s'.history)
    (hpromise : ∀ a d n x y, .promise a d n x y ∈ s'.history → d ≠ c →
      .promise a d n x y ∈ s.history)
    (haccept : ∀ a d n v, .accept a d n v ∈ s'.history → .accept a d n v ∈ s.history ∨
      d = c ∧ n = call'.n ∧ v = call'.chosenV ∧ call'.stage.isPrepared = true ∧
        majority acceptors.length ≤ call'.promises)
    (hcall : CallInv acceptors s'.history s.Proposed c call') : CallsInv acceptors s' := by
  have hlt : c < s.calls.length := (List.getElem?_eq_some_iff.mp hc).1
  have hP : ∀ v, s.Proposed v → s'.Proposed v := by
    intro v hv'
    unfold State.Proposed
    rw [hcalls]
    exact proposed_set hc hv hv'
  have hself : s'.calls[c]? = some call' := by
    rw [hcalls, getElem?_set_self hlt]
  refine ⟨fun d x hd => ?_, fun a d n x y hmem => ?_, fun a d n v hmem => ?_⟩
  · by_cases hdc : d = c
    · subst hdc
      obtain rfl : call' = x := Option.some.inj (hself.symm.trans hd)
      exact hcall.mono (List.Subset.refl _) (fun _ _ _ _ hmem => hmem) hP
    · rw [hcalls, getElem?_set_ne (Ne.symm hdc)] at hd
      exact (h.call d x hd).mono hsub (fun a n x y hmem => hpromise a d n x y hmem hdc) hP
  · rw [hcalls, length_set]
    by_cases hdc : d = c
    · rw [hdc]
      exact hlt
    · exact h.promise a d n x y (hpromise a d n x y hmem hdc)
  · rcases haccept a d n v hmem with hold | ⟨rfl, rfl, rfl, hprepared, hmaj⟩
    · obtain ⟨x, hx, hxn, hxv, hxprep, hxmaj⟩ := h.accept a d n v hold
      by_cases hdc : d = c
      · subst hdc
        obtain rfl : call = x := Option.some.inj (hc.symm.trans hx)
        obtain ⟨hprep', hchosen, hpromises⟩ := hprep hxprep
        exact ⟨call', hself, hn.trans hxn, hchosen.trans hxv, hprep', hpromises ▸ hxmaj⟩
      · refine ⟨x, ?_, hxn, hxv, hxprep, hxmaj⟩
        rw [hcalls, getElem?_set_ne (Ne.symm hdc)]
        exact hx
    · exact ⟨call', hself, rfl, rfl, hprepared, hmaj⟩

end CallsInv

/-- **One step keeps calls and answers together.** -/
theorem callsInv_move [DecidableEq I] (hnodup : acceptors.Nodup) (hmove : Move acceptors s s')
    (hanswers : AnswersInv s.acceptors s.history) (h : CallsInv acceptors s) :
    CallsInv acceptors s' := by
  cases hmove with
  | idle => exact ⟨h.call, h.promise, h.accept⟩
  | start proposers v n hv hn =>
    have hP : ∀ w, s.Proposed w → ∃ call ∈ s.calls ++ [Call.start acceptors v n], call.v = w :=
      fun w ⟨call, hmem, heq⟩ => ⟨call, mem_append_left _ hmem, heq⟩
    refine ⟨fun c call hc => ?_, fun a c m x y hmem => ?_, fun a c m w hmem => ?_⟩
    · rcases lt_or_ge c s.calls.length with hlt | hge
      · have hold : s.calls[c]? = some call := by
          rwa [getElem?_append_left hlt] at hc
        exact (h.call c call hold).mono (List.Subset.refl _) (fun _ _ _ _ hmem => hmem) hP
      · -- nobody has answered the new call
        rw [getElem?_append_right hge] at hc
        obtain rfl := mem_singleton.mp (mem_of_getElem? hc)
        refine ⟨hn, hv, ⟨hnodup, List.Subset.refl _⟩, ⟨[], nodup_nil, rfl,
          nil_subset _, nofun, nofun⟩, fun _ hstage => (nomatch hstage),
          .inl ⟨rfl, rfl⟩, fun a m x y hmem => ?_,
          ⟨_, mem_append_right _ (mem_singleton_self _), rfl⟩⟩
        exact absurd (h.promise a c m x y hmem) (not_lt.mpr hge)
    · exact (h.promise a c m x y hmem).trans_le (by simp)
    · obtain ⟨call, hc, hrest⟩ := h.accept a c m w hmem
      refine ⟨call, ?_, hrest⟩
      rw [getElem?_append_left (List.getElem?_eq_some_iff.mp hc).1]
      exact hc
  | go c call accepts stage hc hnext =>
    exact h.set hc rfl rfl rfl (fun hp => ⟨hnext.prepared hp, rfl, rfl⟩)
      (List.Subset.refl _) (fun _ _ _ _ _ hmem _ => hmem) (fun _ _ _ _ hmem => .inl hmem)
      ((h.call c call hc).next accepts hnext)
  | promise c call a rest hc hstage =>
    have hfields : ∀ accN accV, (call.prepared rest true accN accV).v = call.v ∧
        (call.prepared rest true accN accV).n = call.n := by
      intro accN accV
      unfold Call.prepared
      split_ifs <;> exact ⟨rfl, rfl⟩
    refine h.set hc rfl (hfields _ _).1 (hfields _ _).2 (fun hp => ?_)
      (subset_append_left _ _) (fun b d n x y hmem hdc => ?_)
      (fun b d n v hmem => .inl (by simpa using hmem))
      ((h.call c call hc).promised hstage (h.report hanswers a))
    · rw [hstage] at hp
      exact absurd hp Bool.false_ne_true
    · simpa [hdc] using hmem
  | accept c call a rest hc hstage =>
    have hcall := (h.call c call hc).next (call.accepts + 1) (.accept hstage)
    refine h.set hc rfl rfl rfl (fun _ => ⟨rfl, rfl, rfl⟩) (subset_append_left _ _)
      (fun b d n x y hmem _ => by simpa using hmem) (fun b d n v hmem => ?_)
      (hcall.mono (subset_append_left _ _) (fun b n x y hmem => by simpa using hmem)
        fun _ hP => hP)
    rcases mem_append.mp hmem with hold | hnew
    · exact .inl hold
    · injection mem_singleton.mp hnew with _ hd hn hv
      exact .inr ⟨hd, hn, hv, rfl, (h.call c call hc).majority _ hstage⟩

/-! ### Agreement -/

/-- More than half of the acceptors, without repetition. -/
def IsMajority (acceptors Q : List I) : Prop :=
  Q.Nodup ∧ Q ⊆ acceptors ∧ majority acceptors.length ≤ Q.length

/-- An acceptor has accepted a proposal. -/
def State.Accepted (s : State I V) (a : I) (n : ℕ) (v : Option V) : Prop :=
  ∃ c, .accept a c n v ∈ s.history

/-- **Acceptances keep the rules of numbered ballots.** -/
theorem ballots (hanswers : AnswersInv s.acceptors s.history) (h : CallsInv acceptors s) :
    Ballots s.Accepted (IsMajority acceptors) := by
  have hquorum : ∀ {c call}, s.calls[c]? = some call → majority acceptors.length ≤ call.promises →
      ∃ Q, IsMajority acceptors Q ∧ ∀ a ∈ Q, ∃ x y, .promise a c call.n x y ∈ s.history := by
    intro c call hc hmaj
    obtain ⟨Q, hnodup, hlen, hQ, -, hpromise⟩ := (h.call c call hc).promisers
    exact ⟨Q, ⟨hnodup, hQ, hlen ▸ hmaj⟩, hpromise⟩
  have hoverlap : ∀ Q Q', IsMajority acceptors Q → IsMajority acceptors Q' → ∃ a ∈ Q, a ∈ Q' := by
    rintro Q Q' ⟨hnodup, hsub, hlen⟩ ⟨hnodup', hsub', hlen'⟩
    unfold majority at hlen hlen'
    exact exists_mem_of_length_lt hnodup hnodup' hsub hsub' (by omega)
  refine ⟨hoverlap, ?_, ?_⟩
  · -- both calls have a promise of their number from one acceptor
    rintro a b n v w ⟨c, hv⟩ ⟨c', hw⟩
    obtain ⟨call, hc, hn, rfl, -, hmaj⟩ := h.accept a c n v hv
    obtain ⟨call', hc', hn', rfl, -, hmaj'⟩ := h.accept b c' n w hw
    obtain ⟨Q, hQ, hpromise⟩ := hquorum hc hmaj
    obtain ⟨Q', hQ', hpromise'⟩ := hquorum hc' hmaj'
    obtain ⟨d, hd, hd'⟩ := hoverlap Q Q' hQ hQ'
    obtain ⟨x, y, hxy⟩ := hpromise d hd
    obtain ⟨x', y', hxy'⟩ := hpromise' d hd'
    rw [hn] at hxy
    rw [hn'] at hxy'
    obtain rfl := hanswers.once d c c' n x y x' y' hxy hxy'
    rw [Option.some.inj (hc.symm.trans hc')]
  · rintro a n v ⟨c, hv⟩
    obtain ⟨call, hc, rfl, rfl, -, hmaj⟩ := h.accept a c n v hv
    obtain ⟨Q, hQ, hpromise⟩ := hquorum hc hmaj
    have hcall := h.call c call hc
    have hlatest : ∀ b ∈ Q, ∀ m w, s.Accepted b m w → m < call.n → m ≤ call.highestAcceptedN := by
      rintro b hb m w ⟨c', hw⟩ hlt
      obtain ⟨x, y, hxy⟩ := hpromise b hb
      exact (hanswers.latest b c call.n x y hxy c' m w hw hlt).trans (hcall.highest b _ x y hxy)
    refine ⟨Q, hQ, ?_⟩
    rcases hcall.adopted with ⟨hzero, -⟩ | ⟨hpos, b, hb⟩
    · left
      rintro b hb m w ⟨c', hw⟩ hlt
      obtain ⟨call', hc', hm, -⟩ := h.accept b c' m w hw
      have hle := hlatest b hb m w ⟨c', hw⟩ hlt
      have hm' := (h.call c' call' hc').pos
      omega
    · right
      refine ⟨b, call.highestAcceptedN, ?_, hanswers.below b c _ _ _ hb, hlatest⟩
      exact (hanswers.reported b c _ _ _ hb).resolve_left fun hnone => hpos.ne' hnone.1

variable [DecidableEq I] [DecidableEq V]

/-- Acceptance by a majority is choice by a quorum. -/
lemma chosen_of_acceptedByMajority (hnodup : acceptors.Nodup)
    (h : s.AcceptedByMajority acceptors n v) : Chosen s.Accepted (IsMajority acceptors) n v := by
  refine ⟨_, ⟨hnodup.filter _, filter_sublist.subset, h⟩, fun a ha => ?_⟩
  obtain ⟨x, hx, haccept⟩ := any_eq_true.mp (mem_filter.mp ha).2
  cases x with
  | promise => exact absurd haccept Bool.false_ne_true
  | accept b c =>
    obtain ⟨rfl, rfl, rfl⟩ := of_decide_eq_true haccept
    exact ⟨c, hx⟩

/-- **Agreement and validity.** Any proposers, with any ids, restarted or not, propose values that
are not `nil` with rounds below `2 ^ 48`, their requests are interleaved in any way and they stop
anywhere: if two proposals have each been accepted by a majority, they have one value, and it has
been passed to `Propose`. -/
theorem paxos_agreement (hnodup : acceptors.Nodup) {as : List (Action V)}
    (h : Along (State.step acceptors) (fun s a => s.admissible a = true) State.new as) {n₁ n₂ : ℕ}
    {v₁ v₂ : Option V}
    (h₁ : (run (State.step acceptors) State.new as).AcceptedByMajority acceptors n₁ v₁)
    (h₂ : (run (State.step acceptors) State.new as).AcceptedByMajority acceptors n₂ v₂) :
    v₁ = v₂ ∧ ∃ call ∈ (run (State.step acceptors) State.new as).calls, call.v = v₁ := by
  have hinv : AnswersInv (run (State.step acceptors) State.new as).acceptors
      (run (State.step acceptors) State.new as).history ∧
      CallsInv acceptors (run (State.step acceptors) State.new as) := by
    refine run_invariant (fun s => AnswersInv s.acceptors s.history ∧ CallsInv acceptors s) ?_ h
      ⟨answersInv_new, CallsInv.new acceptors⟩
    intro s a hadm ⟨hanswers, hcalls⟩
    have hmove : Move acceptors s (s.step acceptors a) := move_step hadm
    exact ⟨answersInv_move hmove hanswers, callsInv_move hnodup hmove hanswers hcalls⟩
  obtain ⟨hanswers, hcalls⟩ := hinv
  have hballots := ballots hanswers hcalls
  have hchosen₁ := chosen_of_acceptedByMajority hnodup h₁
  have hchosen₂ := chosen_of_acceptedByMajority hnodup h₂
  refine ⟨hballots.agreement hchosen₁ hchosen₂, ?_⟩
  obtain ⟨Q, hQ, hall⟩ := hchosen₁
  obtain ⟨a, ha, -⟩ := hballots.overlap Q Q hQ hQ
  obtain ⟨c, hc⟩ := hall a ha
  obtain ⟨call, hcall, -, rfl, -, -⟩ := hcalls.accept a c n₁ v₁ hc
  exact (hcalls.call c call hcall).chosen

/-- A proposer gets its value accepted by two of three acceptors and stops; a second one with its id
is refused with the first number, and finds the value with the next one. -/
private def restarted : List (Action ℕ) :=
  [.newProposer 1, .propose 0 (some 10)] ++ List.replicate 6 (Action.advance 0) ++
    [.newProposer 1, .propose 1 (some 20)] ++ List.replicate 4 (Action.advance 1) ++
    [.propose 1 (some 20)] ++ List.replicate 7 (Action.advance 2)

theorem paxos_agreement_restarted :
    Along (State.step [0, 1, 2]) (fun s a => s.admissible a = true) State.new restarted ∧
      (run (State.step [0, 1, 2]) State.new restarted).AcceptedByMajority [0, 1, 2] 65537
        (some 10) ∧
      (run (State.step [0, 1, 2]) State.new restarted).AcceptedByMajority [0, 1, 2] 131073
        (some 10) ∧
      ∃ call ∈ (run (State.step [0, 1, 2]) State.new restarted).calls, call.v = some 10 := by
  have hadm : Along (State.step [0, 1, 2]) (fun s a => s.admissible a = true) State.new
      restarted := by
    decide +kernel
  have h₁ : (run (State.step [0, 1, 2]) State.new restarted).AcceptedByMajority [0, 1, 2] 65537
      (some 10) := by
    decide +kernel
  have h₂ : (run (State.step [0, 1, 2]) State.new restarted).AcceptedByMajority [0, 1, 2] 131073
      (some 10) := by
    decide +kernel
  exact ⟨hadm, h₁, h₂, (paxos_agreement (by decide) hadm h₁ h₂).2⟩

end Replication.Paxos
