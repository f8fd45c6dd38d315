import Mathlib.Data.List.Basic

/-!
# Runs of a labelled transition function

A system is a state type `S`, an action type `A` and a total function `step : S → A → S`; a
schedule is a list of actions.

* `run_invariant` — what permitted steps preserve, permitted runs preserve.
* `getElem?_set_inv`, `getElem?_concat_inv` — where the calls in a table come from that a step has
  changed at one place or made longer.
-/

namespace Replication.Library

variable {S S' A : Type*} {as : List A} {s : S}

/-- The state reached from `s` by the schedule `as`. -/
def run (step : S → A → S) (s : S) (as : List A) : S := as.foldl step s

/-- Every step of the run of `as` from `s` meets the condition `P`. -/
def Along (step : S → A → S) (P : S → A → Prop) : S → List A → Prop
  | _, [] => True
  | s, a :: as => P s a ∧ Along step P (step s a) as

/-- A decidable step condition can be checked on a concrete schedule. -/
instance Along.decidable (step : S → A → S) (P : S → A → Prop) [∀ s a, Decidable (P s a)] :
    (s : S) → (as : List A) → Decidable (Along step P s as)
  | _, [] => inferInstanceAs (Decidable True)
  | s, a :: as =>
    have := Along.decidable step P (step s a) as
    inferInstanceAs (Decidable (P s a ∧ Along step P (step s a) as))

variable {step : S → A → S} {P Q R : S → A → Prop}

/-- The empty schedule. -/
@[simp] lemma run_nil (s : S) : run step s [] = s := rfl

/-- The first action of a schedule. -/
@[simp] lemma run_cons (s : S) (a : A) (as : List A) :
    run step s (a :: as) = run step (step s a) as := rfl

/-- One schedule after another. -/
lemma run_append (s : S) (as bs : List A) : run step s (as ++ bs) = run step (run step s as) bs :=
  List.foldl_append

/-- There is nothing to meet in the empty schedule. -/
@[simp] lemma along_nil (s : S) : Along step P s [] := trivial

/-- The first action, and the rest of the run. -/
@[simp] lemma along_cons {a : A} :
    Along step P s (a :: as) ↔ P s a ∧ Along step P (step s a) as := Iff.rfl

/-- Both parts of a run. -/
lemma along_append {bs : List A} :
    Along step P s (as ++ bs) ↔ Along step P s as ∧ Along step P (run step s as) bs := by
  induction as generalizing s with
  | nil => simp
  | cons a as ih => simp [ih, and_assoc]

/-- A condition on the actions alone. -/
lemma along_of_forall {B : A → Prop} (h : ∀ a ∈ as, B a) (s : S) :
    Along step (fun _ a => B a) s as := by
  induction as generalizing s with
  | nil => trivial
  | cons a as ih =>
    exact ⟨h a List.mem_cons_self, ih (fun b hb => h b (List.mem_cons_of_mem _ hb)) _⟩

/-- Two conditions at once. -/
lemma Along.and (hP : Along step P s as) (hQ : Along step Q s as) :
    Along step (fun s a => P s a ∧ Q s a) s as := by
  induction as generalizing s with
  | nil => trivial
  | cons a as ih => exact ⟨⟨hP.1, hQ.1⟩, ih hP.2 hQ.2⟩

section

variable (Inv : S → Prop)

/-- **The invariant rule**: what every permitted step preserves, every permitted run preserves. -/
theorem run_invariant (hstep : ∀ s a, P s a → Inv s → Inv (step s a)) (h : Along step P s as)
    (hs : Inv s) : Inv (run step s as) := by
  induction as generalizing s with
  | nil => exact hs
  | cons a as ih => exact ih h.2 (hstep s a h.1 hs)

/-- The rule for steps without condition. -/
lemma run_invariant' (hstep : ∀ s a, Inv s → Inv (step s a)) (as : List A) (hs : Inv s) :
    Inv (run step s as) := by
  induction as generalizing s with
  | nil => exact hs
  | cons a as ih => exact ih (hstep s a hs)

/-- An invariant turns one condition into another. -/
lemma along_of_invariant (hstep : ∀ s a, P s a → Inv s → Inv (step s a))
    (hQ : ∀ s a, P s a → Inv s → Q s a) (h : Along step P s as) (hs : Inv s) :
    Along step Q s as := by
  induction as generalizing s with
  | nil => trivial
  | cons a as ih => exact ⟨hQ s a h.1 hs, ih h.2 (hstep s a h.1 hs)⟩

/-- Conditions that are the same in the states of an invariant. -/
lemma along_congr (hstep : ∀ s a, P s a → Inv s → Inv (step s a))
    (hiff : ∀ s a, P s a → Inv s → (Q s a ↔ R s a)) (h : Along step P s as) (hs : Inv s) :
    Along step Q s as ↔ Along step R s as := by
  induction as generalizing s with
  | nil => exact Iff.rfl
  | cons a as ih => exact and_congr (hiff s a h.1 hs) (ih h.2 (hstep s a h.1 hs))

end

/-- **Exact step conditions**: if, from the states of an invariant, the permitted steps are exactly
those that lead to a good state, and they keep the invariant, then the runs of permitted steps are
exactly those whose states are all good. -/
theorem along_iff_forall_prefix (Inv Good : S → Prop) (hgood : ∀ s, Inv s → Good s)
    (hexact : ∀ s a, Inv s → (P s a ↔ Good (step s a)))
    (hstep : ∀ s a, P s a → Inv s → Inv (step s a)) (hs : Inv s) (as : List A) :
    Along step P s as ↔ ∀ as', as' <+: as → Good (run step s as') := by
  constructor
  · rintro h as' ⟨bs, rfl⟩
    exact hgood _ (run_invariant Inv hstep (along_append.mp h).1 hs)
  · intro h
    induction as generalizing s with
    | nil => trivial
    | cons a as ih =>
      have ha : P s a := (hexact s a hs).mpr (h [a] ⟨as, rfl⟩)
      refine ⟨ha, ih (hstep s a ha hs) fun as' has' => ?_⟩
      exact h (a :: as') (List.cons_prefix_cons.mpr ⟨rfl, has'⟩)

/-! ### Instrumented systems -/

section map

variable {step' : S' → A → S'} {π : S' → S}

/-- If every instrumented step projects to a plain step, every instrumented run projects to
the plain run of the same schedule. -/
lemma run_map (hπ : ∀ s a, π (step' s a) = step (π s) a) (s : S') (as : List A) :
    π (run step' s as) = run step (π s) as := by
  induction as generalizing s with
  | nil => rfl
  | cons a as ih => rw [run_cons, run_cons, ih, hπ]

/-- Conditions on the plain states hold along the instrumented run. -/
lemma along_map (hπ : ∀ s a, π (step' s a) = step (π s) a) {s : S'} (h : Along step P (π s) as) :
    Along step' (fun t a => P (π t) a) s as := by
  induction as generalizing s with
  | nil => trivial
  | cons a as ih =>
    refine ⟨h.1, ih ?_⟩
    rw [hπ]
    exact h.2

end map

/-! ### Tables of calls -/

section table

variable {α : Type*} {l : List α} {i j : ℕ} {x y : α}

/-- A place of a changed table. -/
lemma getElem?_set_inv (h : (l.set i x)[j]? = some y) : j = i ∧ y = x ∨ j ≠ i ∧ l[j]? = some y := by
  rw [List.getElem?_set] at h
  split_ifs at h with hi hlt
  · exact .inl ⟨hi.symm, (Option.some.inj h).symm⟩
  · exact .inr ⟨fun hj => hi hj.symm, h⟩

/-- A place of a longer table. -/
lemma getElem?_concat_inv (h : (l ++ [x])[j]? = some y) :
    j = l.length ∧ y = x ∨ l[j]? = some y := by
  rcases Nat.lt_or_ge j l.length with hj | hj
  · rw [List.getElem?_append_left hj] at h
    exact .inr h
  rw [List.getElem?_append_right hj] at h
  obtain ⟨hlt, heq⟩ := List.getElem?_eq_some_iff.mp h
  rw [List.length_singleton] at hlt
  rw [List.getElem_singleton] at heq
  exact .inl ⟨by omega, heq.symm⟩

end table

end Replication.Library
