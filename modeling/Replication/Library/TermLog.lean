import Mathlib.Data.Finset.Basic

/-!
# Logs whose entries carry a term

Lists read as 1-based logs, over an arbitrary entry type `E` with a term `term : E → ℕ`.
-/

namespace Replication.Library

open List

variable {E : Type*} {k sn : ℕ} {ℓ ℓ' : List E} {cur es : List E} {e : E} {i : ℕ}

/-! ### Reading a log by index -/

/-- The entry at index `i`, counted from `1`. -/
def entryAt (ℓ : List E) : ℕ → Option E
  | 0 => none
  | i + 1 => ℓ[i]?

/-- The entry at `i + 1` is at position `i`. -/
@[simp] lemma entryAt_succ (ℓ : List E) (i : ℕ) : entryAt ℓ (i + 1) = ℓ[i]? := rfl

/-- The empty log has no entries. -/
@[simp] lemma entryAt_nil (i : ℕ) : entryAt ([] : List E) i = none := by
  cases i <;> rfl

/-- Entries are at `1` to the length. -/
lemma entryAt_bounds (h : entryAt ℓ i = some e) : 0 < i ∧ i ≤ ℓ.length := by
  cases i with
  | zero => cases h
  | succ i =>
    obtain ⟨hi, -⟩ := List.getElem?_eq_some_iff.mp h
    exact ⟨i.succ_pos, hi⟩

/-- All of these indices have one. -/
lemma exists_entryAt (h₀ : 0 < i) (h : i ≤ ℓ.length) : ∃ e, entryAt ℓ i = some e := by
  cases i with
  | zero => omega
  | succ i => exact ⟨ℓ[i], getElem?_eq_getElem h⟩

/-- An extension has the same entries. -/
lemma entryAt_prefix_eq (h : ℓ <+: ℓ') (hi : i ≤ ℓ.length) : entryAt ℓ' i = entryAt ℓ i := by
  obtain ⟨t, rfl⟩ := h
  cases i with
  | zero => rfl
  | succ => exact getElem?_append_left hi

/-- A beginning has the same entries. -/
lemma entryAt_take (h : i ≤ k) : entryAt (ℓ.take k) i = entryAt ℓ i := by
  cases i with
  | zero => rfl
  | succ => exact getElem?_take_of_lt h

/-- A log that begins with the first `k` entries has them at their indices. -/
lemma entryAt_of_isPrefix_take (h : ℓ.take k <+: ℓ') (hi : i ≤ k) (he : entryAt ℓ i = some e) :
    entryAt ℓ' i = some e := by
  have hle : i ≤ (ℓ.take k).length := by
    rw [length_take]
    exact le_min hi (entryAt_bounds he).2
  rw [entryAt_prefix_eq h hle, entryAt_take hi, he]

/-- The entry that was appended. -/
@[simp] lemma entryAt_append_self (ℓ : List E) (e : E) :
    entryAt (ℓ ++ [e]) (ℓ.length + 1) = some e := by
  simp

/-- Logs that agree up to `k` have the same entries there. -/
lemma entryAt_eq_of_take_eq (h : ℓ.take k = ℓ'.take k) (hi : i ≤ k) :
    entryAt ℓ i = entryAt ℓ' i := by
  rw [← entryAt_take hi, h, entryAt_take hi]

/-- A beginning and the next entry. -/
lemma take_succ_of_getElem? (h : ℓ[i]? = some e) : ℓ.take (i + 1) = ℓ.take i ++ [e] := by
  rw [take_add_one, h]
  rfl

/-- An extension has the same beginnings. -/
lemma take_prefix_eq (h : ℓ <+: ℓ') (hk : k ≤ ℓ.length) : ℓ'.take k = ℓ.take k := by
  obtain ⟨t, rfl⟩ := h
  rw [take_append_of_le_length hk]

/-- To begin with the first `k` entries is to have the same ones. -/
lemma prefix_take_iff (hk : k ≤ ℓ.length) : ℓ.take k <+: ℓ' ↔ ℓ'.take k = ℓ.take k := by
  constructor
  · intro h
    rw [prefix_iff_eq_take, length_take_of_le hk] at h
    exact h.symm
  · intro h
    rw [← h]
    exact take_prefix k ℓ'

/-! ### Terms -/

section term

variable (term : E → ℕ)

/-- The term at index `i`, or `0` where the log has no entry. -/
def termAt (ℓ : List E) (i : ℕ) : ℕ := (entryAt ℓ i).elim 0 term

/-- The term of the last entry, or `0` for the empty log. -/
def lastTerm (ℓ : List E) : ℕ := termAt term ℓ ℓ.length

variable {term}

/-- The term of an entry. -/
lemma termAt_of_entryAt (h : entryAt ℓ i = some e) : termAt term ℓ i = term e := by
  rw [termAt, h]
  rfl

/-- The last term of a beginning. -/
lemma lastTerm_take (hk : k ≤ ℓ.length) : lastTerm term (ℓ.take k) = termAt term ℓ k := by
  rw [lastTerm, termAt, length_take_of_le hk, entryAt_take le_rfl]
  rfl

/-- A positive term is that of an entry. -/
lemma exists_of_termAt_pos (h : 0 < termAt term ℓ i) :
    ∃ e, entryAt ℓ i = some e ∧ term e = termAt term ℓ i := by
  unfold termAt at h ⊢
  cases he : entryAt ℓ i with
  | none => rw [he] at h; exact absurd h (lt_irrefl 0)
  | some e => exact ⟨e, rfl, rfl⟩

/-! ### Splicing entries into a log -/

variable (term)

/-- Write `e` at position `i` (counted from `0`) of a log whose first `sn` entries are out of
reach: an entry of the same term stays, one of another term is cut off together with everything
after it, and the next free position is appended to. -/
def splice (sn : ℕ) (ℓ : List E) (i : ℕ) (e : E) : List E :=
  if i < sn then ℓ
  else match ℓ[i]? with
    | some e' => if term e' = term e then ℓ else ℓ.take i ++ [e]
    | none => if i = ℓ.length then ℓ ++ [e] else ℓ

/-- Write a list of entries at consecutive positions from `i` on. -/
def spliceAll (sn : ℕ) : List E → ℕ → List E → List E
  | ℓ, _, [] => ℓ
  | ℓ, i, e :: es => spliceAll sn (splice term sn ℓ i e) (i + 1) es

variable {term} in
/-- Splicing an entry keeps the first `k` entries, unless it contradicts one of them. -/
lemma take_splice_of_agree (hk : k ≤ cur.length)
    (hag : sn ≤ i → i < k → ∀ e', cur[i]? = some e' → term e' = term e) :
    (splice term sn cur i e).take k = cur.take k ∧ k ≤ (splice term sn cur i e).length := by
  unfold splice
  by_cases hi : i < sn
  · rw [if_pos hi]
    exact ⟨rfl, hk⟩
  rw [if_neg hi]
  cases hc : cur[i]? with
  | some e' =>
    have hlt : i < cur.length := (List.getElem?_eq_some_iff.mp hc).1
    by_cases ht : term e' = term e
    · simp only [if_pos ht, hk, and_self]
    have hki : k ≤ i := by
      by_contra hlt'
      exact ht (hag (by omega) (by omega) e' hc)
    have hlen : (cur.take i).length = i := length_take_of_le hlt.le
    simp only [if_neg ht]
    refine ⟨?_, by rw [length_append, hlen]; omega⟩
    rw [take_append_of_le_length (by omega), take_take, min_eq_left hki]
  | none =>
    by_cases hend : i = cur.length
    · simp only [if_pos hend]
      exact ⟨take_append_of_le_length hk, by rw [length_append]; omega⟩
    · simp only [if_neg hend, hk, and_self]

variable {term} in
/-- Splicing a list of entries keeps the first `k` entries, unless one of them contradicts one of
those. -/
lemma take_spliceAll_of_agree (hk : k ≤ cur.length)
    (hag : ∀ j e, es[j]? = some e → sn ≤ i + j → i + j < k →
      ∀ e', cur[i + j]? = some e' → term e' = term e) :
    (spliceAll term sn cur i es).take k = cur.take k := by
  induction es generalizing cur i with
  | nil => rfl
  | cons e es ih =>
    obtain ⟨htake, hlen⟩ := take_splice_of_agree (i := i) (e := e) hk (hag 0 e rfl)
    refine (ih hlen fun j e' hj hsn hlt e'' he'' => ?_).trans htake
    have heq : (splice term sn cur i e)[i + 1 + j]? = cur[i + 1 + j]? := by
      rw [← getElem?_take_of_lt hlt, htake, getElem?_take_of_lt hlt]
    have hidx : i + 1 + j = i + (j + 1) := by omega
    rw [heq] at he''
    rw [hidx] at hsn hlt he''
    exact hag (j + 1) e' (by simpa using hj) hsn hlt e'' he''

/-- The part out of reach stays. -/
lemma take_spliceAll (hsn : sn ≤ ℓ.length) (i : ℕ) (es : List E) :
    (spliceAll term sn ℓ i es).take sn = ℓ.take sn :=
  take_spliceAll_of_agree hsn fun _ _ _ hle hlt => absurd hlt (not_lt.mpr hle)

/-! ### Entries that are identified by position and term -/

/-- An entry that is spliced has another term than the one at its position. -/
def Conflict (ℓ : List E) (i : ℕ) (es : List E) : Prop :=
  ∃ j e e', es[j]? = some e ∧ ℓ[i + j]? = some e' ∧ term e' ≠ term e

/-- Position and term identify the entries of a log and those that are spliced into it. -/
def Identified (ℓ : List E) (i : ℕ) (es : List E) : Prop :=
  ∀ j e e', es[j]? = some e → ℓ[i + j]? = some e' → term e' = term e → e' = e

variable {term}

/-- The entries after the first. -/
lemma Identified.tail (h : Identified term ℓ i (e :: es)) : Identified term ℓ (i + 1) es := by
  intro j a a' ha ha'
  refine h (j + 1) a a' (by simpa using ha) ?_
  rwa [Nat.add_comm j 1, ← Nat.add_assoc]

/-- A first entry that agrees has no part in a conflict. -/
lemma conflict_cons_iff {a : E} (hat : ℓ[i]? = some a) (hterm : term a = term e) :
    Conflict term ℓ i (e :: es) ↔ Conflict term ℓ (i + 1) es := by
  constructor
  · rintro ⟨j, b, b', hb, hb', hne⟩
    cases j with
    | zero =>
      obtain rfl : e = b := Option.some.inj hb
      obtain rfl : a = b' := Option.some.inj (hat.symm.trans hb')
      exact absurd hterm hne
    | succ j =>
      refine ⟨j, b, b', by simpa using hb, ?_, hne⟩
      rwa [Nat.add_assoc, Nat.add_comm 1 j]
  · rintro ⟨j, b, b', hb, hb', hne⟩
    refine ⟨j + 1, b, b', by simpa using hb, ?_, hne⟩
    rwa [Nat.add_comm j 1, ← Nat.add_assoc]

/-- At the end of a log entries are appended. -/
lemma spliceAll_length (ℓ es : List E) : spliceAll term 0 ℓ ℓ.length es = ℓ ++ es := by
  induction es generalizing ℓ with
  | nil => exact (append_nil ℓ).symm
  | cons e es ih =>
    have hsplice : splice term 0 ℓ ℓ.length e = ℓ ++ [e] := by
      unfold splice
      simp
    have hlen : ℓ.length + 1 = (ℓ ++ [e]).length := by simp
    rw [spliceAll, hsplice, hlen, ih, append_assoc, singleton_append]

/-- **With a conflict** nothing stays behind the spliced entries; **without** one they are written
over, and what follows stays. -/
theorem spliceAll_cases (hi : i ≤ ℓ.length) (hid : Identified term ℓ i es) :
    (Conflict term ℓ i es → spliceAll term 0 ℓ i es = ℓ.take i ++ es) ∧
      (¬ Conflict term ℓ i es →
        spliceAll term 0 ℓ i es = ℓ.take i ++ es ++ ℓ.drop (i + es.length)) := by
  induction es generalizing i with
  | nil =>
    have hno : ¬ Conflict term ℓ i [] := fun ⟨_, _, _, hj, _⟩ => nomatch hj
    exact ⟨fun hc => absurd hc hno, fun _ => by simp [spliceAll]⟩
  | cons e es ih =>
    rw [spliceAll]
    rcases Nat.lt_or_ge i ℓ.length with hlt | hge
    · have hat : ℓ[i]? = some ℓ[i] := getElem?_eq_getElem hlt
      by_cases hterm : term ℓ[i] = term e
      · have hsplice : splice term 0 ℓ i e = ℓ := by
          unfold splice
          simp [hat, hterm]
        have he : ℓ[i] = e := hid 0 e _ rfl hat hterm
        have htake : ℓ.take (i + 1) ++ es = ℓ.take i ++ e :: es := by
          rw [take_succ_of_getElem? hat, he, append_assoc, singleton_append]
        have hlen : i + 1 + es.length = i + (e :: es).length := by
          rw [length_cons]
          omega
        rw [hsplice, conflict_cons_iff hat hterm, ← htake, ← hlen]
        exact ih hlt hid.tail
      · -- the log is cut here, and the rest is appended
        have hsplice : splice term 0 ℓ i e = ℓ.take i ++ [e] := by
          unfold splice
          simp [hat, hterm]
        have hend : i + 1 = (ℓ.take i ++ [e]).length := by
          rw [length_append, length_take_of_le hlt.le, length_singleton]
        refine ⟨fun _ => ?_, fun hno => absurd ⟨0, e, ℓ[i], rfl, hat, hterm⟩ hno⟩
        rw [hsplice, hend, spliceAll_length, append_assoc, singleton_append]
    · -- behind the end there is nothing to contradict
      obtain rfl : i = ℓ.length := le_antisymm hi hge
      have hno : ¬ Conflict term ℓ ℓ.length (e :: es) := by
        rintro ⟨j, a, a', -, ha', -⟩
        have := (List.getElem?_eq_some_iff.mp ha').1
        omega
      refine ⟨fun hc => absurd hc hno, fun _ => ?_⟩
      rw [← spliceAll, spliceAll_length, take_length, drop_of_length_le (by omega), append_nil]

end term

/-- `ℓ'` is what `ℓ` becomes when it takes over the first `k` entries of `ref`: it stays as it
is if it begins with them, and is cut down (or completed) to exactly them otherwise; an `ℓ`
longer than `k` is cut down only when it disagrees with them. -/
def Adopts (ref : List E) (k : ℕ) (ℓ ℓ' : List E) : Prop :=
  (ℓ' = ℓ ∧ ref.take k <+: ℓ) ∨
    (ℓ' = ref.take k ∧ (ℓ.length ≤ k ∨ ¬ ref.take k <+: ℓ))

namespace Adopts

variable {ref ℓ ℓ' : List E} {k : ℕ}

/-- Adopting keeps every initial segment that the reference log shares: if `p` begins both `ℓ`
and `ref`, it begins the new log, unless the log was cut below `p`. -/
lemma prefix_or_not_prefix (h : Adopts ref k ℓ ℓ') {p : List E} (hp : p <+: ℓ) :
    p <+: ℓ' ∨ ¬ p <+: ref := by
  rcases h with ⟨rfl, -⟩ | ⟨rfl, hcut⟩
  · exact .inl hp
  by_cases hpr : p <+: ref
  · left
    by_cases hle : p.length ≤ k
    · -- `p` lies inside the adopted part
      refine prefix_of_prefix_length_le hpr (List.take_prefix k ref) ?_
      rw [length_take]
      exact le_min hle hpr.length_le
    · -- `p` reaches past the adopted part, so the old log held all of it: it was not cut
      exfalso
      rcases hcut with hlen | hne
      · have := hp.length_le
        omega
      apply hne
      refine List.IsPrefix.trans ?_ hp
      refine prefix_of_prefix_length_le (List.take_prefix k ref) hpr ?_
      rw [length_take]
      omega
  · exact .inr hpr

end Adopts

section adopt

variable {term : E → ℕ} {ref ℓ : List E} {sn : ℕ}

/-- One spliced entry of the reference log extends the adopted part by one. -/
lemma Adopts.splice (hmatch : ∀ j a b, ℓ[j]? = some a → ref[j]? = some b → term a = term b →
      ℓ.take (j + 1) = ref.take (j + 1)) (hsn : i < sn → ref.take (i + 1) <+: ℓ)
    (he : ref[i]? = some e) (h : Adopts ref i ℓ cur) :
    Adopts ref (i + 1) ℓ (splice term sn cur i e) := by
  have hi : i < ref.length := (List.getElem?_eq_some_iff.mp he).1
  have hsucc : ref.take (i + 1) = ref.take i ++ [e] := take_succ_of_getElem? he
  have hstep : ref.take i <+: ref.take (i + 1) := hsucc ▸ prefix_append _ _
  unfold Library.splice
  by_cases his : i < sn
  · -- below the fixed part nothing is written, and the log begins with the entry already
    rw [if_pos his]
    left
    have hp := hsn his
    rcases h with ⟨rfl, -⟩ | ⟨rfl, hcut⟩
    · exact ⟨rfl, hp⟩
    exfalso
    rcases hcut with hlen | hne
    · have := hp.length_le
      rw [length_take_of_le hi] at this
      omega
    · exact hne (hstep.trans hp)
  · rw [if_neg his]
    rcases h with ⟨rfl, hp⟩ | ⟨rfl, hcut⟩
    · -- the log still is the old one
      have hci : cur.take i = ref.take i := (prefix_take_iff hi.le).mp hp
      cases hc : cur[i]? with
      | some e' =>
        by_cases ht : term e' = term e
        · left
          refine ⟨by simp [ht], ?_⟩
          rw [← hmatch i e' e hc he ht]
          exact take_prefix _ _
        · right
          refine ⟨by simp [ht, hci, hsucc], .inr fun hpre => ?_⟩
          have hcr := hc.symm.trans (entryAt_of_isPrefix_take (i := i + 1) hpre le_rfl he)
          cases hcr
          exact ht rfl
      | none =>
        have hlen : cur.length = i := by
          have h₁ : cur.length ≤ i := List.getElem?_eq_none_iff.mp hc
          have h₂ := hp.length_le
          rw [length_take_of_le hi.le] at h₂
          omega
        right
        refine ⟨?_, .inl (by omega)⟩
        have hc' : cur = ref.take i := by rw [← hci, ← hlen, take_length]
        simp [hlen, hsucc, ← hc']
    · -- the log has been cut to the first `i` entries already
      have hlen : (ref.take i).length = i := length_take_of_le hi.le
      right
      refine ⟨by simp [hlen, hsucc], ?_⟩
      rcases hcut with hl | hne
      · exact .inl (by omega)
      · exact .inr fun hpre => hne (hstep.trans hpre)

/-- **Splicing a segment of a reference log adopts it.** The hypotheses are those under which a
log and the reference log may be spliced: equal terms at an index mean equal logs up to it, and
what lies in the fixed part is already there. -/
theorem adopts_spliceAll (hmatch : ∀ j a b, ℓ[j]? = some a → ref[j]? = some b → term a = term b →
      ℓ.take (j + 1) = ref.take (j + 1))
    (hsn : ∀ j, j < sn → j < i + es.length → ref.take (j + 1) <+: ℓ)
    (hes : ∀ j e, es[j]? = some e → ref[i + j]? = some e) (h : Adopts ref i ℓ cur) :
    Adopts ref (i + es.length) ℓ (spliceAll term sn cur i es) := by
  induction es generalizing cur i with
  | nil => exact h
  | cons e es ih =>
    have he : ref[i]? = some e := hes 0 e rfl
    have h' : Adopts ref (i + 1) ℓ (Library.splice term sn cur i e) :=
      h.splice hmatch (fun hi => hsn i hi (by simp)) he
    rw [length_cons, Nat.add_comm es.length 1, ← Nat.add_assoc]
    refine ih (fun j hj hlt => hsn j hj ?_) (fun j e' hj => ?_) h'
    · rw [length_cons]
      omega
    · have := hes (j + 1) e' (by simpa using hj)
      rwa [Nat.add_comm j 1, ← Nat.add_assoc] at this

end adopt

end Replication.Library
