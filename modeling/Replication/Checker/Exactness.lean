import Replication.Checker.Linearizability
import Replication.Library.Locality

/-!
# Checker · Exactness: the search finds an order exactly if there is one

* `search_blame` — what a failure reports is an operation of the register.
* `checkRegister_iff`, `checkRegister_exact` — all keys.
-/

namespace Replication.Checker

open Library List

/-- The interval of an operation is one of `int64`. -/
def Op.InRange (op : Op) : Prop := op.invoke ≤ op.complete ∧ op.complete ≤ maxInt64

/-- The operations run through, from a value of the register. -/
def Runs : String → List Op → Prop
  | _, [] => True
  | current, op :: l => ∃ value, op.apply current = some value ∧ Runs value l

/-! ### The search -/

lemma le_minComplete_iff {rest : List Op} {t : ℤ} :
    t ≤ minComplete rest ↔ t ≤ maxInt64 ∧ ∀ op ∈ rest, t ≤ op.complete := by
  unfold minComplete
  generalize maxInt64 = m
  induction rest generalizing m with
  | nil => simp
  | cons op rest ih =>
    rw [foldl_cons, ih]
    simp only [mem_cons, forall_eq_or_imp]
    split_ifs with hlt
    · exact ⟨fun ⟨h, hall⟩ => ⟨h.trans hlt.le, h, hall⟩, fun ⟨_, h, hall⟩ => ⟨h, hall⟩⟩
    · exact ⟨fun ⟨h, hall⟩ => ⟨h, h.trans (not_lt.mp hlt), hall⟩, fun ⟨h, _, hall⟩ => ⟨h, hall⟩⟩

lemma tryFrom_iff {attempt : ℕ → Op → Option Op → Bool × Option Op}
    (hblame : ∀ i op blame, (attempt i op blame).1 = (attempt i op none).1) (i : ℕ) (ops : List Op)
    (blame : Option Op) : (tryFrom attempt i ops blame).1 = true ↔
      ∃ j op, ops[j]? = some op ∧ (attempt (i + j) op none).1 = true := by
  induction ops generalizing i blame with
  | nil => simp [tryFrom]
  | cons op ops ih =>
    rw [tryFrom]
    split_ifs with h
    · refine iff_of_true h ⟨0, op, rfl, ?_⟩
      rwa [hblame] at h
    rw [ih]
    constructor
    · rintro ⟨j, op', hj, hop'⟩
      refine ⟨j + 1, op', hj, ?_⟩
      rwa [Nat.add_right_comm, Nat.add_assoc] at hop'
    · rintro ⟨j, op', hj, hop'⟩
      cases j with
      | zero =>
        obtain rfl := Option.some.inj hj
        rw [hblame] at h
        exact absurd hop' h
      | succ j =>
        refine ⟨j, op', hj, ?_⟩
        rwa [Nat.add_right_comm, Nat.add_assoc]

lemma tryOp_fst {next : String → List Op → Option Op → Bool × Option Op}
    (h : ∀ value rest blame, (next value rest blame).1 = (next value rest none).1)
    (current : String) (rest : List Op) (i : ℕ) (op : Op) (blame : Option Op) :
    (tryOp next current rest i op blame).1 = (tryOp next current rest i op none).1 := by
  unfold tryOp
  split_ifs
  · rfl
  · cases op.apply current with
    | none => rfl
    | some value => exact h value _ blame

/-- The answer does not depend on the blamed operation. -/
lemma search_fst (fuel : ℕ) (current : String) (rest : List Op) (blame : Option Op) :
    (search fuel current rest blame).1 = (search fuel current rest none).1 := by
  induction fuel generalizing current rest blame with
  | zero => cases rest <;> rfl
  | succ fuel ih =>
    cases rest with
    | nil => rfl
    | cons op ops =>
      have hblame := tryOp_fst ih current (op :: ops)
      rw [Bool.eq_iff_iff, search, search, tryFrom_iff hblame, tryFrom_iff hblame]

/-- An attempt succeeds if the operation is a candidate, has a legal effect, and the others can be
placed after it. -/
lemma search_succ_iff {fuel : ℕ} {current : String} {op₀ : Op} {ops : List Op}
    {blame : Option Op} : (search (fuel + 1) current (op₀ :: ops) blame).1 = true ↔
      ∃ i op, (op₀ :: ops)[i]? = some op ∧ op.invoke ≤ minComplete (op₀ :: ops) ∧
        ∃ value, op.apply current = some value ∧
          (search fuel value ((op₀ :: ops).eraseIdx i) none).1 = true := by
  rw [search_fst, search, tryFrom_iff (tryOp_fst (search_fst fuel) current (op₀ :: ops))]
  refine exists_congr fun i => exists_congr fun op => and_congr_right fun _ => ?_
  rw [Nat.zero_add]
  unfold tryOp
  split_ifs with hlt
  · simp [not_le.mpr hlt]
  · cases op.apply current with
    | none => simp
    | some => simp [not_lt.mp hlt]

/-- **The search is exact**: it succeeds exactly if the operations have an order that follows real
time and runs through. -/
theorem search_iff {fuel : ℕ} {current : String} {rest : List Op} {blame : Option Op}
    (hfuel : rest.length ≤ fuel) (hrange : ∀ op ∈ rest, op.InRange) :
    (search fuel current rest blame).1 = true ↔
      ∃ l : List Op, l.Perm rest ∧ RealTime Op.invoke Op.complete l ∧ Runs current l := by
  induction fuel generalizing current rest blame with
  | zero =>
    obtain rfl := length_eq_zero_iff.mp (Nat.le_zero.mp hfuel)
    exact iff_of_true rfl ⟨[], List.Perm.nil, List.Pairwise.nil, trivial⟩
  | succ fuel ih =>
    cases rest with
    | nil => exact iff_of_true rfl ⟨[], List.Perm.nil, List.Pairwise.nil, trivial⟩
    | cons op₀ ops =>
      rw [search_succ_iff]
      generalize hrest : op₀ :: ops = rest at hfuel hrange
      -- the search goes on with one operation less
      have hih : ∀ {i : ℕ} {op : Op} {value : String}, rest[i]? = some op →
          ((search fuel value (rest.eraseIdx i) none).1 = true ↔ ∃ l : List Op,
            l.Perm (rest.eraseIdx i) ∧ RealTime Op.invoke Op.complete l ∧ Runs value l) := by
        intro i op value hi
        obtain ⟨hlt, -⟩ := List.getElem?_eq_some_iff.mp hi
        refine ih ?_ fun x hx => hrange x (mem_of_mem_eraseIdx hx)
        rw [length_eraseIdx_of_lt hlt]
        omega
      have hperm : ∀ {i : ℕ} {op : Op}, rest[i]? = some op →
          (op :: rest.eraseIdx i).Perm rest := by
        intro i op hi
        obtain ⟨hlt, rfl⟩ := List.getElem?_eq_some_iff.mp hi
        exact getElem_cons_eraseIdx_perm hlt
      constructor
      · rintro ⟨i, op, hi, hmin, value, hvalue, hsearch⟩
        obtain ⟨l, hl, hrt, hruns⟩ := (hih hi).mp hsearch
        refine ⟨op :: l, (hl.cons op).trans (hperm hi), ?_, value, hvalue, hruns⟩
        refine pairwise_cons.mpr ⟨fun b hb => not_lt.mpr ?_, hrt⟩
        exact (le_minComplete_iff.mp hmin).2 b (mem_of_mem_eraseIdx (hl.mem_iff.mp hb))
      · rintro ⟨l, hl, hrt, hruns⟩
        cases l with
        | nil => exact absurd (hrest.trans hl.nil_eq.symm) (cons_ne_nil op₀ ops)
        | cons op l =>
          obtain ⟨hfirst, hrt⟩ := pairwise_cons.mp hrt
          obtain ⟨value, hvalue, hruns⟩ := hruns
          have hmem : op ∈ rest := hl.mem_iff.mp mem_cons_self
          obtain ⟨i, hi⟩ := getElem?_of_mem hmem
          refine ⟨i, op, hi, le_minComplete_iff.mpr ⟨?_, fun b hb => ?_⟩, value, hvalue,
            (hih hi).mpr ⟨l, ?_, hrt, hruns⟩⟩
          · exact (hrange op hmem).1.trans (hrange op hmem).2
          · rcases mem_cons.mp (hl.mem_iff.mpr hb) with rfl | hb
            · exact (hrange b hmem).1
            · exact not_lt.mp (hfirst b hb)
          · exact List.Perm.cons_inv (hl.trans (hperm hi).symm)

/-- **What is blamed** is an operation that was to be placed, or what was blamed before. -/
theorem search_blame {fuel : ℕ} {current : String} {rest : List Op} {blame : Option Op} {op : Op}
    (h : (search fuel current rest blame).2 = some op) : blame = some op ∨ op ∈ rest := by
  induction fuel generalizing current rest blame with
  | zero => cases rest <;> exact .inl h
  | succ fuel ih =>
    cases rest with
    | nil => exact .inl h
    | cons op₀ ops =>
      rw [search] at h
      generalize hrest : op₀ :: ops = rest at h
      have hattempt : ∀ i op' b, op' ∈ rest →
          (tryOp (search fuel) current rest i op' b).2 = some op →
            b = some op ∨ op ∈ rest := by
        intro i op' b hmem hb
        unfold tryOp at hb
        split_ifs at hb
        · exact .inl hb
        cases hvalue : op'.apply current with
        | none =>
          rw [hvalue] at hb
          exact .inr (Option.some.inj hb ▸ hmem)
        | some =>
          rw [hvalue] at hb
          exact (ih hb).imp_right mem_of_mem_eraseIdx
      -- the loop, over a part of the operations
      have hloop : ∀ (l : List Op) (i : ℕ) (b : Option Op), l ⊆ rest →
          (tryFrom (tryOp (search fuel) current rest) i l b).2 = some op →
            b = some op ∨ op ∈ rest := by
        intro l
        induction l with
        | nil => exact fun i b _ hb => .inl hb
        | cons op' l ihl =>
          intro i b hsub hb
          obtain ⟨hmem, hsub⟩ := cons_subset.mp hsub
          rw [tryFrom] at hb
          split_ifs at hb
          · exact hattempt i op' b hmem hb
          · rcases ihl (i + 1) _ hsub hb with hb | hb
            · exact hattempt i op' b hmem hb
            · exact .inr hb
      exact hloop rest 0 blame (List.Subset.refl _) h

/-! ### One register -/

/-- The value of a register after a sequence of its operations. -/
lemma runs_iff {key : String} {l : List Op} (hkey : ∀ op ∈ l, op.key = key) (current : String) :
    Runs current l ↔ ∀ before op after, l = before ++ op :: after → op.kind = .read →
      op.value = before.foldl (fun v o => if o.kind = .write ∧ o.key = key then o.value else v)
        current := by
  induction l generalizing current with
  | nil =>
    refine iff_of_true trivial fun before op after h => ?_
    exact absurd h (append_ne_nil_of_right_ne_nil _ (cons_ne_nil _ _)).symm
  | cons o l ih =>
    have ho : o.key = key := hkey o mem_cons_self
    have hl : ∀ op ∈ l, op.key = key := fun op hop => hkey op (mem_cons_of_mem o hop)
    -- the first operation, and those after it
    have hsplit : ∀ value, o.apply current = some value →
        (if o.kind = .write ∧ o.key = key then o.value else current) = value := by
      intro value hvalue
      unfold Op.apply at hvalue
      cases hk : o.kind with
      | write => simpa [hk, ho] using hvalue
      | read =>
        simp only [hk, Option.ite_none_right_eq_some, Option.some.injEq] at hvalue
        simpa using hvalue.2
      | other => simpa [hk] using hvalue
    constructor
    · rintro ⟨value, hvalue, hruns⟩ before op after heq hread
      cases before with
      | nil =>
        obtain ⟨rfl, rfl⟩ := List.cons.inj heq
        simp only [Op.apply, hread, Option.ite_none_right_eq_some] at hvalue
        exact hvalue.1
      | cons b before =>
        obtain ⟨rfl, rfl⟩ := List.cons.inj heq
        rw [foldl_cons, hsplit value hvalue]
        exact (ih hl value).mp hruns before op after rfl hread
    · intro h
      have hvalue : o.apply current =
          some (if o.kind = .write ∧ o.key = key then o.value else current) := by
        unfold Op.apply
        cases hk : o.kind with
        | write => simp [ho]
        | read => simp [show o.value = current from h [] o l rfl hk]
        | other => simp
      refine ⟨_, hvalue, (ih hl _).mpr fun before op after heq hread => ?_⟩
      rw [h (o :: before) op after (by rw [heq]; rfl) hread, foldl_cons]

/-- The search of one key is exact. -/
lemma linearizeKey_iff {key : String} {sub : List Op} (hkey : ∀ op ∈ sub, op.key = key)
    (hrange : ∀ op ∈ sub, op.InRange) : (linearizeKey sub).1 = true ↔ Linearizable sub := by
  have hsort := perm_insertionSort Op.le sub
  have hfst : (linearizeKey sub).1 = (search (sub.insertionSort Op.le).length ""
      (sub.insertionSort Op.le) none).1 := by
    dsimp only [linearizeKey]
    split_ifs with h
    · exact h.symm
    · simpa using h
  rw [hfst, search_iff le_rfl fun op hop => hrange op (hsort.mem_iff.mp hop)]
  refine exists_congr fun l => ⟨fun ⟨hperm, hrt, hruns⟩ => ?_, fun ⟨hperm, hrt, hlegal⟩ => ?_⟩
  · have hkey' : ∀ op ∈ l, op.key = key := fun op hop =>
      hkey op (hsort.mem_iff.mp (hperm.mem_iff.mp hop))
    refine ⟨hperm.trans hsort, hrt, fun before op after heq hread => ?_⟩
    have hmem : op ∈ l := by simp [heq]
    rw [hkey' op hmem]
    exact (runs_iff hkey' "").mp hruns before op after heq hread
  · have hkey' : ∀ op ∈ l, op.key = key := fun op hop => hkey op (hperm.mem_iff.mp hop)
    refine ⟨hperm.trans hsort.symm, hrt,
      (runs_iff hkey' "").mpr fun before op after heq hread => ?_⟩
    have hmem : op ∈ l := by simp [heq]
    have hvalue := hlegal before op after heq hread
    rw [hkey' op hmem] at hvalue
    exact hvalue

lemma linearizeKey_blame {sub : List Op} (h : ¬(linearizeKey sub).1 = true) :
    ∃ op ∈ sub, (linearizeKey sub).2 = some op := by
  have hsort := perm_insertionSort Op.le sub
  dsimp only [linearizeKey] at h ⊢
  split_ifs at h ⊢ with hsearch
  · exact absurd rfl h
  dsimp only
  generalize sub.insertionSort Op.le = ops at hsort hsearch
  cases hblame : (search ops.length "" ops none).2 with
  | some op =>
    have hmem := (search_blame hblame).resolve_left (Option.some_ne_none op).symm
    exact ⟨op, hsort.mem_iff.mp hmem, rfl⟩
  | none =>
    cases ops with
    | nil => exact absurd rfl hsearch
    | cons op => exact ⟨op, hsort.mem_iff.mp mem_cons_self, rfl⟩

/-! ### All registers -/

lemma lastValue_filter (key : String) (l : List Op) :
    lastValue key (l.filter (·.key = key)) = lastValue key l := by
  unfold lastValue
  generalize "" = v
  induction l generalizing v with
  | nil => rfl
  | cons op l ih =>
    by_cases hkey : op.key = key
    · simp only [filter_cons, hkey, decide_true, if_true, foldl_cons, and_true]
      exact ih _
    · simp only [filter_cons, hkey, decide_false, Bool.false_eq_true, if_false,
        foldl_cons, and_false]
      exact ih _

/-- An order is legal if it is for each key. -/
lemma legal_iff_filter {l : List Op} : Legal l ↔ ∀ key, Legal (l.filter (·.key = key)) := by
  constructor
  · intro h key before op after heq hread
    obtain ⟨l₁, l₂, rfl, rfl, htail⟩ := filter_eq_append_iff.mp heq
    obtain ⟨l₃, l₄, rfl, hnone, hop, -⟩ := filter_eq_cons_iff.mp htail
    have hkey : op.key = key := of_decide_eq_true hop
    have hvalue := h (l₁ ++ l₃) op l₄ (append_assoc _ _ _).symm hread
    have hfilter : (l₁ ++ l₃).filter (·.key = key) = l₁.filter (·.key = key) := by
      rw [filter_append, filter_eq_nil_iff.mpr hnone, append_nil]
    rw [hvalue, hkey, ← lastValue_filter key (l₁ ++ l₃), hfilter]
  · intro h before op after heq hread
    rw [← lastValue_filter]
    refine h op.key _ op (after.filter (·.key = op.key)) ?_ hread
    rw [heq, filter_append, filter_cons, if_pos (decide_eq_true rfl)]

/-- **Registers can be checked one by one.** -/
theorem linearizable_iff_filter {ops : List Op} (h : ∀ op ∈ ops, op.invoke ≤ op.complete) :
    Linearizable ops ↔ ∀ key, Linearizable (ops.filter (·.key = key)) := by
  constructor
  · rintro ⟨l, hperm, hrt, hlegal⟩ key
    exact ⟨l.filter (·.key = key), hperm.filter _, hrt.filter _, legal_iff_filter.mp hlegal key⟩
  · intro hkeys
    choose L hperm hrt hlegal using hkeys
    obtain ⟨l, hl, hlrt, hfilter⟩ := exists_merge h Op.key hperm hrt
    refine ⟨l, hl, hlrt, legal_iff_filter.mpr fun key => ?_⟩
    rw [hfilter key]
    exact hlegal key

/-- Keys are checked one by one. -/
lemma checkKeys_iff {ops : List Op} {keys : List String} : (checkKeys ops keys).1 = true ↔
    ∀ key ∈ keys, (linearizeKey (ops.filter (·.key = key))).1 = true := by
  induction keys with
  | nil => simp [checkKeys]
  | cons key keys ih =>
    rw [checkKeys]
    split_ifs with h
    · simp [ih, h]
    · simp [h]

lemma checkKeys_blame {ops : List Op} {keys : List String}
    (h : ¬(checkKeys ops keys).1 = true) : ∃ op ∈ ops, (checkKeys ops keys).2 = some op := by
  induction keys with
  | nil => exact absurd rfl h
  | cons key keys ih =>
    rw [checkKeys] at h ⊢
    split_ifs at h ⊢ with hkey
    · exact ih h
    · obtain ⟨op, hop, hblame⟩ := linearizeKey_blame hkey
      exact ⟨op, (mem_filter.mp hop).1, hblame⟩

lemma mem_sortedKeys {ops : List Op} {key : String} :
    key ∈ sortedKeys ops ↔ ∃ op ∈ ops, op.key = key := by
  simp [sortedKeys]

lemma checkRegister_iff {ops : List Op} (h : ∀ op ∈ ops, op.invoke ≤ op.complete)
    (hmax : ∀ op ∈ ops, op.complete ≤ maxInt64) :
    (checkRegister ops).1 = true ↔ Linearizable ops := by
  unfold checkRegister
  rw [checkKeys_iff, linearizable_iff_filter h]
  have hkey : ∀ key, (linearizeKey (ops.filter (·.key = key))).1 = true ↔
      Linearizable (ops.filter (·.key = key)) := by
    intro key
    refine linearizeKey_iff (fun op hop => of_decide_eq_true (mem_filter.mp hop).2) fun op hop => ?_
    have hmem := (mem_filter.mp hop).1
    exact ⟨h op hmem, hmax op hmem⟩
  refine ⟨fun hall key => ?_, fun hall key _ => (hkey key).mpr (hall key)⟩
  by_cases hmem : key ∈ sortedKeys ops
  · exact (hkey key).mp (hall key hmem)
  -- a key without operations
  have hnil : ops.filter (·.key = key) = [] := by
    refine filter_eq_nil_iff.mpr fun op hop heq => hmem ?_
    exact mem_sortedKeys.mpr ⟨op, hop, of_decide_eq_true heq⟩
  rw [hnil]
  refine ⟨[], List.Perm.nil, List.Pairwise.nil, fun before op after heq => ?_⟩
  exact absurd heq (append_ne_nil_of_right_ne_nil _ (cons_ne_nil _ _)).symm

/-- **The checker is exact.** For every history of operations with intervals of `int64`, it accepts
exactly the linearizable ones, and what it reports otherwise is one of the operations. -/
theorem checkRegister_exact {ops : List Op} (h : ∀ op ∈ ops, op.invoke ≤ op.complete)
    (hmax : ∀ op ∈ ops, op.complete ≤ maxInt64) :
    ((checkRegister ops).1 = true ↔ Linearizable ops) ∧
      ((checkRegister ops).1 = false → ∃ op ∈ ops, (checkRegister ops).2 = some op) := by
  refine ⟨checkRegister_iff h hmax, fun hfalse => ?_⟩
  exact checkKeys_blame fun htrue => Bool.false_ne_true (hfalse.symm.trans htrue)

/-- A write that overlaps with two reads, of which the first one already sees it. -/
private def overlapping : List Op :=
  [⟨"a", .write, "1", "x", 0, 10⟩, ⟨"b", .read, "1", "x", 1, 2⟩, ⟨"b", .read, "1", "x", 3, 4⟩,
    ⟨"c", .read, "", "y", 5, 6⟩]

/-- A write that overlaps with two reads is accepted. -/
theorem checkRegister_exact_overlapping :
    (∀ op ∈ overlapping, op.invoke ≤ op.complete) ∧
      (∀ op ∈ overlapping, op.complete ≤ maxInt64) ∧ Linearizable overlapping := by
  have h : ∀ op ∈ overlapping, op.invoke ≤ op.complete := by decide
  have hmax : ∀ op ∈ overlapping, op.complete ≤ maxInt64 := by decide
  exact ⟨h, hmax, (checkRegister_exact h hmax).1.mp (by decide +kernel)⟩

end Replication.Checker
