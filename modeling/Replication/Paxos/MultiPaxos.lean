import Mathlib.Data.List.Induction
import Mathlib.Data.Int.Order.Basic
import Mathlib.Data.Nat.Basic
import Mathlib.Logic.Function.Iterate
import Replication.Paxos.Atomic

/-!
# Paxos · MultiPaxos: the slots of a replicated log

`internal/paxos/paxos.go`, `MultiPaxos`. Every slot has acceptors of its own, and every call of
`Decide` makes a new proposer, whose only number is `65536` plus the lower bits of its id. `Decide`
asks all acceptors of the slot without interruption, so that they stay equal to each other and a
slot is a single register.

* `MultiPaxos.decide` — the call, with `growTo` for slots that do not exist yet.
-/

namespace Replication.Paxos

open Library Function List

variable {V : Type}

/-! ### The log -/

/-- A decree for every slot of a log. Source: `paxos.go` `MultiPaxos`. -/
structure MultiPaxos (V : Type) where
  /-- The number of acceptors of a slot. -/
  numAcceptors : ℕ
  slots : List (List (Acceptor V))
  /-- The chosen values, `nil` for undecided slots. -/
  log : List (Option V)
  deriving DecidableEq, Repr

/-- How a call of `Decide` ends. -/
inductive Outcome (V : Type) where
  /-- The slot is negative, and the index into the slots panics. -/
  | panicked
  | failed
  /-- A majority has accepted the value. -/
  | chosen (v : Option V)
  deriving DecidableEq, Repr

/-- The arguments of a call of `Decide`. -/
structure Request (V : Type) where
  slot : ℤ
  proposerID : ℕ
  v : Option V
  deriving DecidableEq, Repr

/-- The only number of the proposer of a call. -/
def Request.number (d : Request V) : ℕ := (Proposer.new d.proposerID).nextProposalNumber.2

namespace MultiPaxos

/-- Source: `paxos.go` `NewMultiPaxos`. -/
def new (numAcceptors : ℤ) : MultiPaxos V :=
  ⟨if numAcceptors ≤ 0 then 1 else numAcceptors.toNat, [], []⟩

/-- One more slot, with new acceptors and without a value. -/
def grow (m : MultiPaxos V) : MultiPaxos V :=
  { m with slots := m.slots ++ [List.replicate m.numAcceptors .new], log := m.log ++ [none] }

/-- Add slots while there are not more than `slot`. Source: `paxos.go` `growTo`. -/
def growTo (m : MultiPaxos V) (slot : ℤ) : MultiPaxos V :=
  grow^[(slot + 1 - m.slots.length).toNat] m

/-- Propose a value for a slot, and record the chosen one. Source: `paxos.go` `Decide`. -/
def decide (m : MultiPaxos V) (slot : ℤ) (proposerID : ℕ) (v : Option V) :
    MultiPaxos V × Outcome V :=
  let m := m.growTo slot
  if slot < 0 then (m, .panicked)
  else
    match m.slots[slot.toNat]? with
    | none => (m, .panicked)
    | some acceptors =>
      let r := (Proposer.new proposerID).propose acceptors v
      match r.2.2 with
      | none => ({ m with slots := m.slots.set slot.toNat r.2.1 }, .failed)
      | some chosen =>
        ({ m with
            slots := m.slots.set slot.toNat r.2.1
            log := m.log.set slot.toNat chosen }, .chosen chosen)

/-- The log after a call. -/
def step (m : MultiPaxos V) (d : Request V) : MultiPaxos V :=
  (m.decide d.slot d.proposerID d.v).1

/-- What a call returns. -/
def outcome (m : MultiPaxos V) (d : Request V) : Outcome V :=
  (m.decide d.slot d.proposerID d.v).2

/-- The acceptors of a slot, fresh ones if it does not exist yet. -/
def acceptorsAt (m : MultiPaxos V) (i : ℕ) : List (Acceptor V) :=
  m.slots[i]?.getD (List.replicate m.numAcceptors .new)

/-- The value of a slot, `nil` if it does not exist yet. -/
def logAt (m : MultiPaxos V) (i : ℕ) : Option V := m.log[i]?.getD none

/-- The call does not propose a value, with a number above the promises, for a slot that has been
decided with `nil`. -/
def nilKept (m : MultiPaxos V) (d : Request V) : Bool :=
  !((0 ≤ d.slot) && d.v.isSome &&
    (m.acceptorsAt d.slot.toNat).any fun a =>
      0 < a.acceptedN && a.acceptedV.isNone && a.promisedN < d.number)

/-! ### New slots -/

/-- A log and its slots before and after slots are added. -/
structure Grown (m m' : MultiPaxos V) : Prop where
  numAcceptors : m'.numAcceptors = m.numAcceptors
  length : m'.log.length = m'.slots.length
  acceptorsAt : ∀ i, m'.acceptorsAt i = m.acceptorsAt i
  logAt : ∀ i, m'.logAt i = m.logAt i

/-- A default at the end changes nothing. -/
lemma getD_concat {α : Type} (l : List α) (d : α) (i : ℕ) :
    (l ++ [d])[i]?.getD d = l[i]?.getD d := by
  rw [getElem?_append]
  split_ifs with hi
  · rfl
  · have hnone : l[i]? = none := getElem?_eq_none (not_lt.mp hi)
    rw [hnone, getElem?_singleton]
    split_ifs <;> rfl

/-- Reading a list after an entry has been replaced. -/
lemma getD_set {α : Type} {l : List α} {i : ℕ} (hi : i < l.length) (a d : α) (j : ℕ) :
    (l.set i a)[j]?.getD d = if i = j then a else l[j]?.getD d := by
  rw [getElem?_set]
  split_ifs <;> rfl

/-- A new slot reads as it did before. -/
lemma grown_grow (m : MultiPaxos V) (h : m.log.length = m.slots.length) : Grown m m.grow where
  numAcceptors := rfl
  length := by simp [grow, h]
  acceptorsAt i := getD_concat m.slots _ i
  logAt i := getD_concat m.log none i

/-- So do several ones. -/
lemma grown_iterate (k : ℕ) (m : MultiPaxos V) (h : m.log.length = m.slots.length) :
    Grown m (grow^[k] m) ∧ (grow^[k] m).slots.length = m.slots.length + k := by
  induction k generalizing m with
  | zero => exact ⟨⟨rfl, h, fun _ => rfl, fun _ => rfl⟩, rfl⟩
  | succ k ih =>
    have hgrow := grown_grow m h
    obtain ⟨hgrown, hlen⟩ := ih m.grow hgrow.length
    rw [Function.iterate_succ_apply]
    refine ⟨⟨hgrown.numAcceptors.trans hgrow.numAcceptors, hgrown.length, fun i => ?_,
      fun i => ?_⟩, ?_⟩
    · rw [hgrown.acceptorsAt, hgrow.acceptorsAt]
    · rw [hgrown.logAt, hgrow.logAt]
    · rw [hlen, grow, length_append, length_singleton]
      omega

/-- The slots reach up to the one asked for. -/
lemma grown_growTo (m : MultiPaxos V) (slot : ℤ) (h : m.log.length = m.slots.length) :
    Grown m (m.growTo slot) ∧ slot < (m.growTo slot).slots.length := by
  obtain ⟨hgrown, hlen⟩ := grown_iterate (slot + 1 - m.slots.length).toNat m h
  refine ⟨hgrown, ?_⟩
  unfold growTo
  rw [hlen]
  omega

end MultiPaxos

/-! ### Acceptors that are equal to each other -/

section uniform

variable {a : Acceptor V} {n : ℕ}

/-- A number that is too low changes nothing. -/
lemma prepareAll_refused (h : ¬ a.promisedN < n) (k : ℕ) (votes : Votes V) :
    prepareAll n (List.replicate k a) votes = (List.replicate k a, votes) := by
  induction k with
  | zero => rfl
  | succ k ih =>
    rw [replicate_succ, prepareAll, Acceptor.prepare, if_neg h]
    dsimp only [Votes.count]
    rw [if_pos rfl, ih]

/-- All promise, and all report the same. -/
lemma prepareAll_promised (h : a.promisedN < n) (k : ℕ) (votes : Votes V) :
    (prepareAll n (List.replicate k a) votes).1 =
        List.replicate k { a with promisedN := n } ∧
      (prepareAll n (List.replicate k a) votes).2.promises = votes.promises + k ∧
      (prepareAll n (List.replicate k a) votes).2.chosenV =
        if 0 < k ∧ a.acceptedV ≠ none ∧ votes.highestAcceptedN < a.acceptedN then a.acceptedV
        else votes.chosenV := by
  induction k generalizing votes with
  | zero => exact ⟨rfl, rfl, rfl⟩
  | succ k ih =>
    obtain ⟨hacc, hpromises, hchosen⟩ :=
      ih (votes.count true a.acceptedN a.acceptedV)
    rw [replicate_succ, prepareAll, Acceptor.prepare, if_pos h]
    dsimp only
    rw [hacc, hpromises, hchosen]
    unfold Votes.count
    rw [if_neg (by simp)]
    -- the first acceptor decides about adoption, and the others report the same
    by_cases hadopt : a.acceptedV ≠ none ∧ votes.highestAcceptedN < a.acceptedN
    · rw [if_pos hadopt]
      dsimp only
      rw [if_neg fun hk => lt_irrefl _ hk.2.2, if_pos ⟨Nat.succ_pos k, hadopt⟩]
      exact ⟨rfl, by omega, rfl⟩
    · rw [if_neg hadopt]
      dsimp only
      rw [if_neg fun hk => hadopt hk.2, if_neg fun hk => hadopt hk.2]
      exact ⟨rfl, by omega, rfl⟩

/-- All accept. -/
lemma acceptAll_replicate (h : a.promisedN ≤ n) (v : Option V) (k accepts : ℕ) :
    acceptAll n v (List.replicate k a) accepts = (List.replicate k ⟨n, n, v⟩, accepts + k) := by
  induction k generalizing accepts with
  | zero => rfl
  | succ k ih =>
    rw [replicate_succ, acceptAll, Acceptor.accept, if_pos h]
    dsimp only
    rw [if_pos rfl, ih, replicate_succ, Nat.add_right_comm, Nat.add_assoc]

/-- **A proposal to equal acceptors** fails at all of them or is accepted by all of them. -/
theorem propose_replicate {p : Proposer} (hn : p.nextProposalNumber.2 = n) {k : ℕ} (hk : 0 < k)
    (a : Acceptor V) (v : Option V) :
    (p.propose (List.replicate k a) v).2 =
      if a.promisedN < n then
        let w := if a.acceptedV ≠ none ∧ 0 < a.acceptedN then a.acceptedV else v
        (List.replicate k ⟨n, n, w⟩, some w)
      else (List.replicate k a, none) := by
  have hmajority : majority k ≤ k := by
    unfold majority
    omega
  have hpos : 0 < majority k := Nat.succ_pos _
  have hnonempty : (List.replicate k a).isEmpty = false := by
    rw [isEmpty_eq_false_iff, ne_eq, replicate_eq_nil_iff]
    omega
  unfold Proposer.propose
  rw [hnonempty, if_neg Bool.false_ne_true, length_replicate]
  dsimp only
  rw [hn]
  by_cases hlt : a.promisedN < n
  · obtain ⟨hacc, hpromises, hchosen⟩ := prepareAll_promised hlt k ⟨0, v, 0⟩
    have hprepared : ({ a with promisedN := n } : Acceptor V).promisedN ≤ n := le_refl n
    simp only [hk, true_and] at hchosen
    rw [if_pos hlt, hpromises, hacc, hchosen, acceptAll_replicate hprepared,
      if_neg (by dsimp only; omega), if_neg (by dsimp only; omega)]
  · rw [if_neg hlt, prepareAll_refused hlt, if_pos hpos]

end uniform

/-! ### Slots as registers -/

/-- A register with the number of the last proposal; a register without a proposal is empty. -/
structure Cell (V : Type) where
  /-- The number of the last accepted proposal, zero if there is none. -/
  number : ℕ
  value : Option V
  /-- Without a proposal there is no value. -/
  empty : number = 0 → value = none

namespace Cell

/-- The empty register. -/
def new : Cell V := ⟨0, none, fun _ => rfl⟩

/-- A proposal with a higher number is accepted; it keeps a value that is not `nil`. -/
def decide (c : Cell V) (n : ℕ) (v : Option V) : Cell V :=
  if h : c.number < n then ⟨n, c.value.or v, by omega⟩ else c

/-- What a proposal to the register returns. -/
def outcome (c : Cell V) (n : ℕ) (v : Option V) : Outcome V :=
  if c.number < n then .chosen (c.value.or v) else .failed

/-- An acceptor with the contents of the register. -/
def acceptor (c : Cell V) : Acceptor V := ⟨c.number, c.number, c.value⟩

/-- The value that a proposal adopts from an acceptor. -/
lemma adopted (c : Cell V) (v : Option V) :
    (if c.acceptor.acceptedV ≠ none ∧ 0 < c.acceptor.acceptedN then c.acceptor.acceptedV else v) =
      c.value.or v := by
  unfold acceptor
  cases hvalue : c.value with
  | none => rfl
  | some w =>
    have hpos : 0 < c.number := by
      refine Nat.pos_of_ne_zero fun h => ?_
      simp [c.empty h] at hvalue
    exact if_pos ⟨Option.some_ne_none w, hpos⟩

end Cell

/-- The slots of the log are registers: all acceptors of a slot have the contents of its register,
and the log has its value. -/
structure Shows (m : MultiPaxos V) (cells : ℕ → Cell V) : Prop where
  numAcceptors : 0 < m.numAcceptors
  length : m.log.length = m.slots.length
  acceptorsAt : ∀ i, m.acceptorsAt i = List.replicate m.numAcceptors (cells i).acceptor
  logAt : ∀ i, m.logAt i = (cells i).value

/-- A call on the registers. -/
def decideCell (cells : ℕ → Cell V) (d : Request V) : ℕ → Cell V :=
  if d.slot < 0 then cells
  else Function.update cells d.slot.toNat ((cells d.slot.toNat).decide d.number d.v)

section shows

variable {m : MultiPaxos V} {cells : ℕ → Cell V} {d : Request V}

/-- An empty log shows empty registers. -/
lemma shows_new (numAcceptors : ℤ) :
    Shows (MultiPaxos.new numAcceptors : MultiPaxos V) fun _ => Cell.new where
  numAcceptors := by
    unfold MultiPaxos.new
    split_ifs <;> dsimp only <;> omega
  length := rfl
  acceptorsAt _ := rfl
  logAt _ := rfl

section

variable (h : Shows m cells)

include h

/-- New slots are empty registers already. -/
lemma Shows.grown {m' : MultiPaxos V} (hgrown : m.Grown m') : Shows m' cells where
  numAcceptors := hgrown.numAcceptors ▸ h.numAcceptors
  length := hgrown.length
  acceptorsAt i := by rw [hgrown.acceptorsAt, h.acceptorsAt, hgrown.numAcceptors]
  logAt i := by rw [hgrown.logAt, h.logAt]

/-- A slot and its register are replaced. -/
lemma Shows.set {i : ℕ} (hi : i < m.slots.length) (c : Cell V) :
    Shows
      { m with
        slots := m.slots.set i (List.replicate m.numAcceptors c.acceptor)
        log := m.log.set i c.value }
      (update cells i c) where
  numAcceptors := h.numAcceptors
  length := by simp only [length_set, h.length]
  acceptorsAt j := by
    refine (MultiPaxos.getD_set hi _ _ j).trans ?_
    split_ifs with heq
    · rw [← heq, update_self]
    · rw [update_of_ne (Ne.symm heq)]
      exact h.acceptorsAt j
  logAt j := by
    refine (MultiPaxos.getD_set (h.length ▸ hi) _ _ j).trans ?_
    split_ifs with heq
    · rw [← heq, update_self]
    · rw [update_of_ne (Ne.symm heq)]
      exact h.logAt j

/-- The acceptors of a slot that exists. -/
lemma Shows.getElem? {i : ℕ} (hi : i < m.slots.length) :
    m.slots[i]? = some (List.replicate m.numAcceptors (cells i).acceptor) := by
  have hacc := h.acceptorsAt i
  unfold MultiPaxos.acceptorsAt at hacc
  rw [getElem?_eq_getElem hi] at hacc ⊢
  exact congrArg some hacc

/-- Acceptors that refuse stay as they are. -/
lemma Shows.set_self {i : ℕ} (hi : i < m.slots.length) :
    m.slots.set i (List.replicate m.numAcceptors (cells i).acceptor) = m.slots := by
  have hget : m.slots[i] = List.replicate m.numAcceptors (cells i).acceptor :=
    (List.getElem?_eq_some_iff.mp (h.getElem? hi)).2
  rw [← hget, set_getElem_self]

/-- **A call on a slot is a call on its register.** -/
theorem shows_decide (d : Request V) :
    Shows (m.step d) (decideCell cells d) ∧
      m.outcome d = if d.slot < 0 then .panicked
        else (cells d.slot.toNat).outcome d.number d.v := by
  obtain ⟨hgrown, hlt⟩ := m.grown_growTo d.slot h.length
  have hshows := h.grown hgrown
  dsimp only [MultiPaxos.step, MultiPaxos.outcome, MultiPaxos.decide, decideCell]
  split_ifs with hneg
  · exact ⟨hshows, rfl⟩
  have hi : d.slot.toNat < (m.growTo d.slot).slots.length := by omega
  rw [hshows.getElem? hi]
  dsimp only
  rw [propose_replicate (n := d.number) rfl hshows.numAcceptors]
  unfold Cell.decide Cell.outcome
  by_cases hnum : (cells d.slot.toNat).number < d.number
  · have hset := hshows.set hi ((cells d.slot.toNat).decide d.number d.v)
    have hadopted := (cells d.slot.toNat).adopted d.v
    unfold Cell.decide at hset
    rw [dif_pos hnum] at hset
    rw [dif_pos hnum, if_pos hnum, if_pos (show (Cell.acceptor _).promisedN < _ from hnum)]
    dsimp only
    rw [hadopted]
    exact ⟨hset, rfl⟩
  · rw [dif_neg hnum, if_neg hnum, if_neg (show ¬ (Cell.acceptor _).promisedN < _ from hnum),
      hshows.set_self hi, update_eq_self]
    exact ⟨hshows, rfl⟩

/-- The number of acceptors is fixed. -/
lemma numAcceptors_step (d : Request V) : (m.step d).numAcceptors = m.numAcceptors := by
  have hgrown := (m.grown_growTo d.slot h.length).1.numAcceptors
  dsimp only [MultiPaxos.step, MultiPaxos.decide]
  split_ifs
  · exact hgrown
  · split
    · exact hgrown
    · split <;> exact hgrown

end

/-- **The slots are registers in every run.** -/
theorem shows_run (numAcceptors : ℤ) (ds : List (Request V)) :
    Shows (run MultiPaxos.step (MultiPaxos.new numAcceptors) ds)
      (run decideCell (fun _ => Cell.new) ds) := by
  induction ds using List.reverseRecOn with
  | nil => exact shows_new numAcceptors
  | append_singleton ds d ih =>
    rw [run_append, run_append]
    exact (shows_decide ih d).1

/-- The condition on a call, in terms of the register. -/
lemma nilKept_iff (h : Shows m cells) :
    m.nilKept d = false ↔ 0 ≤ d.slot ∧ d.v.isSome ∧
      0 < (cells d.slot.toNat).number ∧ (cells d.slot.toNat).value = none ∧
        (cells d.slot.toNat).number < d.number := by
  unfold MultiPaxos.nilKept
  rw [h.acceptorsAt, any_replicate, if_neg (Nat.ne_of_gt h.numAcceptors)]
  simp only [Bool.not_eq_false', Bool.and_eq_true, decide_eq_true_eq, Option.isNone_iff_eq_none,
    and_assoc]
  rfl

end shows

/-! ### Stability -/

/-- A slot has been decided with a value, which may be `nil`. -/
def Decided (m : MultiPaxos V) (i : ℕ) (w : Option V) : Prop :=
  ∃ cells, Shows m cells ∧ 0 < (cells i).number ∧ (cells i).value = w

section decided

variable {m : MultiPaxos V} {i : ℕ} {w : Option V} {d : Request V} {cells : ℕ → Cell V}

/-- The log has the value of a decided slot. -/
lemma Decided.logAt (h : Decided m i w) : m.logAt i = w := by
  obtain ⟨cells, hshows, -, hvalue⟩ := h
  rw [hshows.logAt, hvalue]

/-- A call that returns a value has decided its slot. -/
lemma decided_of_chosen (h : Shows m cells) (hd : m.outcome d = .chosen w) :
    0 ≤ d.slot ∧ Decided (m.step d) d.slot.toNat w := by
  obtain ⟨hshows, houtcome⟩ := shows_decide h d
  rw [houtcome] at hd
  unfold Cell.outcome decideCell at *
  split_ifs at hd hshows with hneg hlt
  refine ⟨not_lt.mp hneg, _, hshows, ?_⟩
  rw [update_self, Cell.decide, dif_pos hlt]
  exact ⟨Nat.zero_lt_of_lt hlt, Outcome.chosen.inj hd⟩

/-- A later call on a decided slot. -/
lemma Decided.outcome (h : Decided m i w) (hkept : m.nilKept d = true) (hslot : d.slot = i) :
    m.outcome d = .failed ∨ m.outcome d = .chosen w := by
  obtain ⟨cells, hshows, hpos, hvalue⟩ := h
  have hi : d.slot.toNat = i := by omega
  rw [(shows_decide hshows d).2, if_neg (by omega), hi]
  unfold Cell.outcome
  split_ifs with hlt
  · right
    cases w with
    | some => rw [hvalue]; rfl
    | none =>
      -- a decided nil is only outbid by nil
      have hv : ¬ d.v.isSome = true := by
        intro hv
        have hfalse := (nilKept_iff (d := d) hshows).mpr
          ⟨by omega, hv, by rwa [hi], by rwa [hi], by rwa [hi]⟩
        simp [hkept] at hfalse
      rw [hvalue, Option.none_or, Option.not_isSome_iff_eq_none.mp hv]
  · exact .inl rfl

/-- A decided slot keeps its value. -/
lemma Decided.step (h : Decided m i w) (hkept : m.nilKept d = true) : Decided (m.step d) i w := by
  by_cases hslot : d.slot = i
  · have hi : d.slot.toNat = i := by omega
    rcases h.outcome hkept hslot with hout | hout
    · obtain ⟨cells, hshows, hpos, hvalue⟩ := h
      obtain ⟨hshows', houtcome⟩ := shows_decide hshows d
      refine ⟨_, hshows', ?_⟩
      rw [houtcome] at hout
      unfold Cell.outcome at hout
      split_ifs at hout with hneg hlt
      unfold decideCell
      rw [if_neg hneg, hi, update_self, Cell.decide, dif_neg (hi ▸ hlt)]
      exact ⟨hpos, hvalue⟩
    · obtain ⟨cells, hshows, -⟩ := h
      exact hi ▸ (decided_of_chosen hshows hout).2
  · obtain ⟨cells, hshows, hpos, hvalue⟩ := h
    refine ⟨_, (shows_decide hshows d).1, ?_⟩
    unfold decideCell
    split_ifs with hneg
    · exact ⟨hpos, hvalue⟩
    · rw [update_of_ne (by omega)]
      exact ⟨hpos, hvalue⟩

/-- A call that breaks the condition replaces a decided `nil`. -/
lemma chosen_of_not_nilKept (h : Shows m cells) (hkept : m.nilKept d = false) :
    0 ≤ d.slot ∧ 0 < (cells d.slot.toNat).number ∧ m.logAt d.slot.toNat = none ∧
      ∃ v, m.outcome d = .chosen (some v) := by
  obtain ⟨hslot, hv, hpos, hvalue, hlt⟩ := (nilKept_iff h).mp hkept
  obtain ⟨v, hv⟩ := Option.isSome_iff_exists.mp hv
  refine ⟨hslot, hpos, (h.logAt _).trans hvalue, v, ?_⟩
  rw [(shows_decide h d).2, if_neg (not_lt.mpr hslot), Cell.outcome, if_pos hlt, hvalue,
    Option.none_or, hv]

/-- A register that changes is that of a call that returns a value. -/
lemma chosen_of_decideCell_ne (h : Shows m cells) (hne : decideCell cells d i ≠ cells i) :
    d.slot = i ∧ ∃ w, m.outcome d = .chosen w := by
  rw [(shows_decide h d).2]
  unfold decideCell at hne
  split_ifs at hne ⊢ with hneg
  · exact absurd rfl hne
  by_cases hi : i = d.slot.toNat
  · rw [hi, update_self] at hne
    unfold Cell.decide at hne
    unfold Cell.outcome
    split_ifs at hne ⊢
    · exact ⟨by omega, _, rfl⟩
    · exact absurd rfl hne
  · rw [update_of_ne hi] at hne
    exact absurd rfl hne

/-- A register with a number has been written by a call. -/
lemma exists_request (numAcceptors : ℤ) (ds : List (Request V))
    (h : 0 < (run decideCell (fun _ => Cell.new) ds i).number) :
    ∃ (pre : List (Request V)) (d : Request V) (mid : List (Request V)) (w : Option V),
      ds = pre ++ d :: mid ∧ d.slot = i ∧
      (run MultiPaxos.step (MultiPaxos.new numAcceptors) pre).outcome d = .chosen w := by
  induction ds using List.reverseRecOn with
  | nil => exact absurd h (lt_irrefl 0)
  | append_singleton ds d ih =>
    rw [run_append] at h
    replace h : 0 < (decideCell (run decideCell (fun _ => Cell.new) ds) d i).number := h
    by_cases hne : decideCell (run decideCell (fun _ => Cell.new) ds) d i =
        run decideCell (fun _ => Cell.new) ds i
    · rw [hne] at h
      obtain ⟨pre, e, mid, w, rfl, hslot, hout⟩ := ih h
      exact ⟨pre, e, mid ++ [d], w, by simp, hslot, hout⟩
    · obtain ⟨hslot, w, hout⟩ := chosen_of_decideCell_ne (shows_run numAcceptors ds) hne
      exact ⟨ds, d, [], w, rfl, hslot, hout⟩

end decided

/-- Once a call on a slot has returned a value, every later call on the slot fails or returns this
value, and the log has it at the slot. -/
def Stable (numAcceptors : ℤ) (ds : List (Request V)) : Prop :=
  ∀ pre d w, pre ++ [d] <+: ds →
    (run MultiPaxos.step (MultiPaxos.new numAcceptors) pre).outcome d = .chosen w →
    ∀ mid, pre ++ d :: mid <+: ds →
      (run MultiPaxos.step (MultiPaxos.new numAcceptors) (pre ++ d :: mid)).logAt d.slot.toNat = w ∧
      ∀ e, pre ++ d :: mid ++ [e] <+: ds → e.slot = d.slot →
        (run MultiPaxos.step (MultiPaxos.new numAcceptors) (pre ++ d :: mid)).outcome e = .failed ∨
        (run MultiPaxos.step (MultiPaxos.new numAcceptors) (pre ++ d :: mid)).outcome e = .chosen w

/-- Decided slots are stable under the condition. -/
lemma stable_of_along {numAcceptors : ℤ} {ds : List (Request V)}
    (h : Along MultiPaxos.step (fun m d => m.nilKept d = true) (MultiPaxos.new numAcceptors) ds) :
    Stable numAcceptors ds := by
  intro pre d w _ hout mid hmid
  obtain ⟨hslot, hdecided⟩ := decided_of_chosen (shows_run numAcceptors pre) hout
  obtain ⟨post, rfl⟩ := hmid
  rw [append_assoc, along_append] at h
  have halong := along_append.mp h.2.2
  have hkeep : Decided (run MultiPaxos.step (MultiPaxos.new numAcceptors) (pre ++ d :: mid))
      d.slot.toNat w := by
    rw [run_append, run_cons]
    exact run_invariant (Decided · d.slot.toNat w) (fun _ _ hk hd => hd.step hk) halong.1 hdecided
  refine ⟨hkeep.logAt, fun e he heq => ?_⟩
  obtain ⟨rest, rfl⟩ : ∃ rest, post = e :: rest := by
    obtain ⟨rest, hrest⟩ := he
    rw [append_assoc] at hrest
    exact ⟨rest, (append_cancel_left hrest).symm⟩
  have hkept := halong.2.1
  rw [← run_cons, ← run_append] at hkept
  exact hkeep.outcome hkept (by omega)

/-- Stability needs the condition. -/
lemma along_of_stable {numAcceptors : ℤ} {ds : List (Request V)} (h : Stable numAcceptors ds) :
    Along MultiPaxos.step (fun m d => m.nilKept d = true) (MultiPaxos.new numAcceptors) ds := by
  induction ds using List.reverseRecOn with
  | nil => trivial
  | append_singleton ds e ih =>
    refine along_append.mpr ⟨ih fun pre d w hpre hout mid hmid => ?_, ?_, trivial⟩
    · obtain ⟨hlog, hlater⟩ := h pre d w (hpre.trans (prefix_append ds [e])) hout mid
        (hmid.trans (prefix_append ds [e]))
      exact ⟨hlog, fun x hx => hlater x (hx.trans (prefix_append ds [e]))⟩
    · by_contra hkept
      rw [Bool.not_eq_true] at hkept
      obtain ⟨hslot, hpos, hlog, v, hout⟩ :=
        chosen_of_not_nilKept (shows_run numAcceptors ds) hkept
      -- the slot was decided by an earlier call, which must have returned nil
      obtain ⟨pre, d, mid, w, rfl, hd, hchosen⟩ := exists_request numAcceptors ds hpos
      have heq : e.slot = d.slot := by omega
      have hpre : pre ++ [d] <+: pre ++ d :: mid ++ [e] := ⟨mid ++ [e], by simp⟩
      obtain ⟨hw, hlater⟩ := h pre d w hpre hchosen mid (prefix_append _ _)
      rw [← heq, hlog] at hw
      rcases hlater e (prefix_refl _) heq with hfail | hsame
      · simp [hout] at hfail
      · simp [hout, ← hw] at hsame

/-- **Slots of the log.** A call on one slot changes neither the log nor the acceptors of another
one. The value that a call has returned for a slot is returned by every later call on it that
succeeds, and stays in the log, exactly if no call proposes a value over a decided `nil`. -/
theorem slots_stable_iff (numAcceptors : ℤ) (ds : List (Request V)) :
    (∀ pre (d : Request V), pre ++ [d] <+: ds → ∀ i : ℕ, d.slot ≠ i →
      (run MultiPaxos.step (MultiPaxos.new numAcceptors) (pre ++ [d])).logAt i =
          (run MultiPaxos.step (MultiPaxos.new numAcceptors) pre).logAt i ∧
        (run MultiPaxos.step (MultiPaxos.new numAcceptors) (pre ++ [d])).acceptorsAt i =
          (run MultiPaxos.step (MultiPaxos.new numAcceptors) pre).acceptorsAt i) ∧
    (Along MultiPaxos.step (fun m d => m.nilKept d = true) (MultiPaxos.new numAcceptors) ds ↔
      Stable numAcceptors ds) := by
  refine ⟨fun pre d _ i hi => ?_, stable_of_along, along_of_stable⟩
  have hbefore := shows_run numAcceptors pre
  have hafter := (shows_decide hbefore d).1
  have hsame : decideCell (run decideCell (fun _ => Cell.new) pre) d i =
      run decideCell (fun _ => Cell.new) pre i := by
    by_contra hne
    exact hi (chosen_of_decideCell_ne hbefore hne).1
  rw [run_append]
  show (MultiPaxos.step _ d).logAt i = _ ∧ (MultiPaxos.step _ d).acceptorsAt i = _
  rw [hafter.logAt, hbefore.logAt, hafter.acceptorsAt, hbefore.acceptorsAt, hsame,
    numAcceptors_step hbefore]
  exact ⟨rfl, rfl⟩

/-- Two proposers for one slot with one for another slot in between: the first value is kept. -/
theorem slots_stable_two :
    Stable 3 ([⟨0, 1, some 5⟩, ⟨1, 2, some 6⟩, ⟨0, 3, some 7⟩] : List (Request ℕ)) ∧
      (run MultiPaxos.step (MultiPaxos.new 3)
        ([⟨0, 1, some 5⟩, ⟨1, 2, some 6⟩] : List (Request ℕ))).logAt 0 =
        (run MultiPaxos.step (MultiPaxos.new 3) ([⟨0, 1, some 5⟩] : List (Request ℕ))).logAt 0 := by
  have h := slots_stable_iff 3 ([⟨0, 1, some 5⟩, ⟨1, 2, some 6⟩, ⟨0, 3, some 7⟩] : List (Request ℕ))
  exact ⟨h.2.mp (by decide), (h.1 [⟨0, 1, some 5⟩] ⟨1, 2, some 6⟩ (by decide) 0 (by decide)).1⟩

/-- A slot that has been decided with `nil` is decided again, with a value. -/
theorem nil_slot_redecided :
    (MultiPaxos.new 3).outcome (⟨0, 1, none⟩ : Request ℕ) = .chosen none ∧
      ((MultiPaxos.new 3).step (⟨0, 1, none⟩ : Request ℕ)).outcome ⟨0, 2, some 7⟩ =
        .chosen (some 7) ∧
      ¬ Stable 3 ([⟨0, 1, none⟩, ⟨0, 2, some 7⟩] : List (Request ℕ)) := by
  refine ⟨by decide, by decide, fun h => ?_⟩
  exact absurd (along_of_stable h) (by decide)

end Replication.Paxos
