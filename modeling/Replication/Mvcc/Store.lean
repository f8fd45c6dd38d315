import Mathlib.Data.Int.Order.Basic
import Mathlib.Data.List.TakeDrop
import Replication.Library.Search

/-!
# Mvcc · Store: version chains

`internal/mvcc/mvcc.go`. A key has a chain of versions in the order of their timestamps. A write
goes to the end of its chain if no version there is later; otherwise it goes before all versions of
its own timestamp, so that of two writes with one timestamp the later one wins in the first case and
the earlier one in the second.
-/

namespace Replication.Mvcc

open Library List

variable {K V : Type}

/-- A committed value of a key. Source: `mvcc.go` `Version`. -/
structure Version (V : Type) where
  value : V
  timestamp : ℤ
  /-- Whether the version is a deletion. -/
  tombstone : Bool
  deriving DecidableEq, Repr

/-- What a read that resolves to the version returns. -/
def Version.result (v : Version V) : Option V := if v.tombstone then none else some v.value

/-- Insert a version into a chain. Source: `mvcc.go` `append`. -/
def appendVersion (chain : List (Version V)) (v : Version V) : List (Version V) :=
  if chain.getLast?.all fun last => last.timestamp ≤ v.timestamp then chain ++ [v]
  else
    let i := searchList (fun w => v.timestamp ≤ w.timestamp) chain
    chain.take i ++ v :: chain.drop i

/-- Read the newest version up to a timestamp. Source: `mvcc.go` `ReadAt`. -/
def readChain (chain : List (Version V)) (ts : ℤ) : Option V :=
  if chain.isEmpty then none
  else
    match searchList (fun v => ts < v.timestamp) chain with
    | 0 => none
    | i + 1 => chain[i]?.bind Version.result

/-- Read the newest version. Source: `mvcc.go` `Latest`. -/
def latestOf (chain : List (Version V)) : Option V := chain.getLast?.bind Version.result

/-- Drop the versions before the newest one below a timestamp. Source: `mvcc.go` `Compact`. -/
def compactChain (chain : List (Version V)) (beforeTs : ℤ) : List (Version V) :=
  if chain.isEmpty then chain
  else
    let i := searchList (fun v => beforeTs ≤ v.timestamp) chain
    let keepFrom := if 0 < i then i - 1 else i
    if keepFrom = 0 then chain else chain.drop keepFrom

/-- A chain for every key, empty for those without versions. Source: `mvcc.go` `Store`. -/
structure Store (K V : Type) where
  versions : K → List (Version V)

namespace Store

/-- Source: `mvcc.go` `New`. -/
def new : Store K V := ⟨fun _ => []⟩

/-- Source: `mvcc.go` `ReadAt`. -/
def readAt (s : Store K V) (key : K) (ts : ℤ) : Option V := readChain (s.versions key) ts

/-- Source: `mvcc.go` `Latest`. -/
def latest (s : Store K V) (key : K) : Option V := latestOf (s.versions key)

variable [DecidableEq K]

/-- Source: `mvcc.go` `append`. -/
def append (s : Store K V) (key : K) (v : Version V) : Store K V :=
  ⟨Function.update s.versions key (appendVersion (s.versions key) v)⟩

/-- Source: `mvcc.go` `Put`. -/
def put (s : Store K V) (key : K) (value : V) (ts : ℤ) : Store K V :=
  s.append key ⟨value, ts, false⟩

/-- A tombstone has the zero value. Source: `mvcc.go` `Delete`. -/
def delete [Inhabited V] (s : Store K V) (key : K) (ts : ℤ) : Store K V :=
  s.append key ⟨default, ts, true⟩

/-- Source: `mvcc.go` `Compact`. -/
def compact (s : Store K V) (key : K) (beforeTs : ℤ) : Store K V :=
  ⟨Function.update s.versions key (compactChain (s.versions key) beforeTs)⟩

end Store

/-- A `Put` or a `Delete`. -/
inductive Write (K V : Type) where
  | put (key : K) (value : V) (ts : ℤ)
  | delete (key : K) (ts : ℤ)
  deriving DecidableEq, Repr

/-- The key that is written. -/
def Write.key : Write K V → K
  | .put key _ _ => key
  | .delete key _ => key

/-- The timestamp of the write. -/
def Write.timestamp : Write K V → ℤ
  | .put _ _ ts => ts
  | .delete _ ts => ts

/-- The version that the write commits. -/
def Write.version [Inhabited V] : Write K V → Version V
  | .put _ value ts => ⟨value, ts, false⟩
  | .delete _ ts => ⟨default, ts, true⟩

/-- The store after a write. -/
def Store.write [Inhabited V] [DecidableEq K] (s : Store K V) : Write K V → Store K V
  | .put key value ts => s.put key value ts
  | .delete key ts => s.delete key ts

/-! ### Sorted chains -/

/-- No version is earlier than one before it. -/
def Sorted (chain : List (Version V)) : Prop :=
  chain.Pairwise fun v w => v.timestamp ≤ w.timestamp

/-- The versions below a timestamp. -/
def below (b : ℤ) (chain : List (Version V)) : List (Version V) :=
  chain.filter fun v => v.timestamp < b

/-- The versions from a timestamp on. -/
def fromOn (b : ℤ) (chain : List (Version V)) : List (Version V) :=
  chain.filter fun v => b ≤ v.timestamp

/-- The newest version below a timestamp. -/
def lastBelow (b : ℤ) (chain : List (Version V)) : Option (Version V) := (below b chain).getLast?

section chain

variable {l l' : List (Version V)} {v w : Version V} {b b' ts : ℤ}

lemma mem_below : w ∈ below b l ↔ w ∈ l ∧ w.timestamp < b := by
  rw [below, mem_filter, decide_eq_true_eq]

lemma mem_fromOn : w ∈ fromOn b l ↔ w ∈ l ∧ b ≤ w.timestamp := by
  rw [fromOn, mem_filter, decide_eq_true_eq]

lemma below_append : below b (l ++ l') = below b l ++ below b l' := filter_append ..

lemma fromOn_append : fromOn b (l ++ l') = fromOn b l ++ fromOn b l' := filter_append ..

lemma below_cons_of_lt (h : v.timestamp < b) : below b (v :: l) = v :: below b l :=
  filter_cons_of_pos (decide_eq_true h)

lemma below_cons_of_le (h : b ≤ v.timestamp) : below b (v :: l) = below b l :=
  filter_cons_of_neg (by simpa using h)

lemma fromOn_cons_of_le (h : b ≤ v.timestamp) : fromOn b (v :: l) = v :: fromOn b l :=
  filter_cons_of_pos (decide_eq_true h)

lemma fromOn_cons_of_lt (h : v.timestamp < b) : fromOn b (v :: l) = fromOn b l :=
  filter_cons_of_neg (by simpa using h)

lemma below_eq_self (h : ∀ w ∈ l, w.timestamp < b) : below b l = l :=
  filter_eq_self.mpr fun w hw => decide_eq_true (h w hw)

lemma fromOn_eq_self (h : ∀ w ∈ l, b ≤ w.timestamp) : fromOn b l = l :=
  filter_eq_self.mpr fun w hw => decide_eq_true (h w hw)

lemma below_eq_nil_iff : below b l = [] ↔ ∀ w ∈ l, b ≤ w.timestamp := by
  rw [below, filter_eq_nil_iff]
  simp

lemma fromOn_eq_nil_iff : fromOn b l = [] ↔ ∀ w ∈ l, w.timestamp < b := by
  rw [fromOn, filter_eq_nil_iff]
  simp

lemma below_of_le (h : b ≤ b') : below b (below b' l) = below b l := by
  unfold below
  rw [filter_comm]
  exact below_eq_self fun w hw => (mem_below.mp hw).2.trans_le h

lemma fromOn_of_le (h : b ≤ b') : fromOn b' (fromOn b l) = fromOn b' l := by
  unfold fromOn
  rw [filter_comm]
  exact fromOn_eq_self fun w hw => h.trans (mem_fromOn.mp hw).2

/-- A sorted chain is cut at a timestamp. -/
lemma below_append_fromOn (hl : Sorted l) (b : ℤ) : below b l ++ fromOn b l = l :=
  filter_append_filter hl b

lemma le_of_lastBelow (hl : Sorted l) (hv : lastBelow b l = some v) (hw : w ∈ l)
    (hwb : w.timestamp < b) : w.timestamp ≤ v.timestamp := by
  obtain ⟨init, hinit⟩ := getLast?_eq_some_iff.mp hv
  have hmem : w ∈ init ++ [v] := by
    rw [← hinit]
    exact mem_below.mpr ⟨hw, hwb⟩
  have hsorted : (init ++ [v]).Pairwise fun v w => v.timestamp ≤ w.timestamp := by
    rw [← hinit]
    exact hl.filter _
  rcases mem_append.mp hmem with hmem | hmem
  · exact (pairwise_append.mp hsorted).2.2 w hmem v (mem_singleton.mpr rfl)
  · rw [mem_singleton.mp hmem]

lemma mem_of_lastBelow (hv : lastBelow b l = some v) : v ∈ l ∧ v.timestamp < b :=
  mem_below.mp (mem_of_getLast? hv)

/-- **A read** returns the newest version below the next timestamp. -/
theorem readChain_eq (hl : Sorted l) (ts : ℤ) :
    readChain l ts = (lastBelow (ts + 1) l).bind Version.result := by
  have hsearch : searchList (fun v => ts < v.timestamp) l =
      (below (ts + 1) l).length := searchList_eq_length hl (ts + 1)
  have hsplit := below_append_fromOn hl (ts + 1)
  unfold readChain lastBelow
  rw [hsearch]
  generalize below (ts + 1) l = below at hsplit
  rw [← hsplit]
  split_ifs with hempty
  · rw [List.isEmpty_iff, append_eq_nil_iff] at hempty
    rw [hempty.1]
    rfl
  · cases hlen : below.length with
    | zero =>
      rw [eq_nil_of_length_eq_zero hlen]
      rfl
    | succ i =>
      have hi : i = below.length - 1 := by omega
      show (below ++ fromOn (ts + 1) l)[i]?.bind Version.result = _
      rw [getElem?_append_left (by omega), getLast?_eq_getElem?, hi]

/-- **The newest version** is the last of those from a timestamp on, or the newest one below it. -/
theorem getLast?_eq (hl : Sorted l) (b : ℤ) :
    l.getLast? = (fromOn b l).getLast?.or (lastBelow b l) := by
  conv_lhs => rw [← below_append_fromOn hl b, getLast?_append]
  rfl

lemma lastBelow_of_le (hl : Sorted l) (h : b ≤ b') :
    lastBelow b' l = (lastBelow b' (fromOn b l)).or (lastBelow b l) := by
  have hbelow : below b' (below b l) = below b l :=
    below_eq_self fun w hw => (mem_below.mp hw).2.trans_le h
  conv_lhs =>
    rw [lastBelow, ← below_append_fromOn hl b, below_append, hbelow, getLast?_append]
  rfl

/-- **A compaction** keeps the newest version below its bound and those from the bound on. -/
theorem compactChain_eq (hl : Sorted l) (b : ℤ) :
    compactChain l b = (lastBelow b l).toList ++ fromOn b l := by
  have hsearch : searchList (fun v => b ≤ v.timestamp) l =
      (below b l).length := searchList_eq_length hl b
  have hsplit := below_append_fromOn hl b
  unfold compactChain lastBelow
  rw [hsearch]
  generalize below b l = below at hsplit
  generalize fromOn b l = later at hsplit
  rw [← hsplit]
  dsimp only
  split_ifs with hempty hpos hone hzero
  · rw [List.isEmpty_iff, append_eq_nil_iff] at hempty
    rw [hempty.1, hempty.2]
    rfl
  · obtain ⟨v, hv⟩ := length_eq_one_iff.mp (show below.length = 1 by omega)
    rw [hv]
    rfl
  · have hne : below ≠ [] := ne_nil_of_length_pos hpos
    rw [drop_append_of_le_length (by omega), drop_length_sub_one hne,
      getLast?_eq_getLast_of_ne_nil hne]
    rfl
  · rw [eq_nil_of_length_eq_zero hzero]
    rfl
  · omega

/-! ### Writes -/

section

variable (hl : Sorted l)

include hl

/-- A version is inserted before the later ones. -/
lemma appendVersion_eq (v : Version V) :
    appendVersion l v =
      if ∀ w ∈ l, w.timestamp ≤ v.timestamp then l ++ [v]
      else below v.timestamp l ++ v :: fromOn v.timestamp l := by
  have hlast : (l.getLast?.all fun last => last.timestamp ≤ v.timestamp) = true ↔
      ∀ w ∈ l, w.timestamp ≤ v.timestamp := by
    cases hlast : l.getLast? with
    | none =>
      rw [getLast?_eq_none_iff.mp hlast]
      simp
    | some last =>
      obtain ⟨init, rfl⟩ := getLast?_eq_some_iff.mp hlast
      have hle := (pairwise_append.mp hl).2.2
      simp only [Option.all_some, decide_eq_true_eq, mem_append, mem_singleton]
      constructor
      · rintro h w (hw | rfl)
        · exact (hle w hw last (mem_singleton.mpr rfl)).trans h
        · exact h
      · exact fun h => h last (.inr rfl)
  dsimp only [appendVersion]
  rw [take_searchList hl, drop_searchList hl]
  by_cases h : ∀ w ∈ l, w.timestamp ≤ v.timestamp
  · rw [if_pos (hlast.mpr h), if_pos h]
  · rw [if_neg (hlast.not.mpr h), if_neg h]
    rfl

lemma mem_appendVersion : w ∈ appendVersion l v ↔ w ∈ l ∨ w = v := by
  rw [appendVersion_eq hl]
  split_ifs
  · rw [mem_append, mem_singleton]
  · have hsplit := below_append_fromOn hl v.timestamp
    conv_rhs => rw [← hsplit, mem_append]
    rw [mem_append, mem_cons, or_left_comm, or_comm]

lemma sorted_appendVersion (v : Version V) : Sorted (appendVersion l v) := by
  rw [appendVersion_eq hl]
  split_ifs with h
  · refine pairwise_append.mpr ⟨hl, pairwise_singleton _ v, fun w hw x hx => ?_⟩
    rw [mem_singleton.mp hx]
    exact h w hw
  · refine pairwise_append.mpr ⟨hl.filter _, pairwise_cons.mpr ⟨fun w hw => ?_,
      hl.filter _⟩, fun w hw x hx => ?_⟩
    · exact (mem_fromOn.mp hw).2
    · have hlt := (mem_below.mp hw).2
      rcases mem_cons.mp hx with rfl | hx
      · exact hlt.le
      · exact hlt.le.trans (mem_fromOn.mp hx).2

lemma fromOn_appendVersion (v : Version V) (b : ℤ) :
    fromOn b (appendVersion l v) =
      if b ≤ v.timestamp then appendVersion (fromOn b l) v else fromOn b l := by
  have hsub : Sorted (fromOn b l) := hl.filter _
  by_cases hv : b ≤ v.timestamp
  · have hall : (∀ w ∈ fromOn b l, w.timestamp ≤ v.timestamp) ↔
        ∀ w ∈ l, w.timestamp ≤ v.timestamp := by
      refine ⟨fun h w hw => ?_, fun h w hw => h w (mem_fromOn.mp hw).1⟩
      rcases le_or_gt b w.timestamp with hb | hb
      · exact h w (mem_fromOn.mpr ⟨hw, hb⟩)
      · exact hb.le.trans hv
    rw [if_pos hv, appendVersion_eq hl, appendVersion_eq hsub]
    by_cases h : ∀ w ∈ l, w.timestamp ≤ v.timestamp
    · rw [if_pos h, if_pos (hall.mpr h), fromOn_append, fromOn_cons_of_le hv]
      rfl
    have hlater : fromOn b (fromOn v.timestamp l) = fromOn v.timestamp (fromOn b l) :=
      filter_comm ..
    have hearlier : fromOn b (below v.timestamp l) = below v.timestamp (fromOn b l) :=
      filter_comm ..
    rw [if_neg h, if_neg (hall.not.mpr h), fromOn_append, fromOn_cons_of_le hv, hlater, hearlier]
  · have hlt := not_le.mp hv
    have hearlier : fromOn b (below v.timestamp l) = [] :=
      fromOn_eq_nil_iff.mpr fun w hw => (mem_below.mp hw).2.trans hlt
    rw [if_neg hv, appendVersion_eq hl]
    split_ifs
    · rw [fromOn_append, fromOn_cons_of_lt hlt]
      exact append_nil _
    · rw [fromOn_append, fromOn_cons_of_lt hlt, hearlier, fromOn_of_le hlt.le, nil_append]

lemma below_appendVersion (hv : b ≤ v.timestamp) : below b (appendVersion l v) = below b l := by
  have hlater : below b (fromOn v.timestamp l) = [] :=
    below_eq_nil_iff.mpr fun w hw => hv.trans (mem_fromOn.mp hw).2
  rw [appendVersion_eq hl]
  split_ifs
  · rw [below_append, below_cons_of_le hv]
    exact append_nil _
  · rw [below_append, below_cons_of_le hv, hlater, below_of_le hv, append_nil]

lemma lastBelow_of_later (hv : v.timestamp < b) (hlater : ¬∀ w ∈ l, w.timestamp ≤ v.timestamp) :
    lastBelow b (appendVersion l v) = (lastBelow b (fromOn v.timestamp l)).or (some v) := by
  have hearlier : below b (below v.timestamp l) = below v.timestamp l :=
    below_eq_self fun w hw => (mem_below.mp hw).2.trans hv
  unfold lastBelow
  rw [appendVersion_eq hl, if_neg hlater, below_append, hearlier, below_cons_of_lt hv,
    getLast?_append, getLast?_cons]
  cases (below b (fromOn v.timestamp l)).getLast? <;> rfl

/-- **The newest version below a timestamp after a write**: one of the same timestamp is replaced
only if there is none from the bound on. -/
theorem lastBelow_appendVersion (v : Version V) (b : ℤ) :
    lastBelow b (appendVersion l v) =
      if b ≤ v.timestamp then lastBelow b l
      else
        match lastBelow b l with
        | none => some v
        | some o =>
          if o.timestamp < v.timestamp ∨ o.timestamp = v.timestamp ∧ fromOn b l = [] then some v
          else some o := by
  split_ifs with hv
  · exact congrArg List.getLast? (below_appendVersion hl hv)
  have hlt := not_le.mp hv
  by_cases hall : ∀ w ∈ l, w.timestamp ≤ v.timestamp
  · -- the write goes to the end
    have hnone : fromOn b l = [] :=
      fromOn_eq_nil_iff.mpr fun w hw => (hall w hw).trans_lt hlt
    have hself : lastBelow b (appendVersion l v) = some v := by
      rw [appendVersion_eq hl, if_pos hall, lastBelow, below_append, below_cons_of_lt hlt]
      exact getLast?_concat
    rw [hself]
    cases ho : lastBelow b l with
    | none => rfl
    | some o =>
      have hle := hall o (mem_of_lastBelow ho).1
      dsimp only
      rw [if_pos (hle.lt_or_eq.imp_right fun h => ⟨h, hnone⟩)]
  · rw [lastBelow_of_later hl hlt hall]
    have hsplit := lastBelow_of_le hl hlt.le
    cases ho : lastBelow b (fromOn v.timestamp l) with
    | none =>
      rw [ho, Option.none_or] at hsplit
      rw [hsplit]
      cases ho' : lastBelow v.timestamp l with
      | none => rfl
      | some =>
        dsimp only
        rw [if_pos (.inl (mem_of_lastBelow ho').2)]
        rfl
    | some =>
      rw [ho, Option.some_or] at hsplit
      rw [hsplit, Option.some_or]
      dsimp only
      have hge := (mem_fromOn.mp (mem_of_lastBelow ho).1).2
      rw [if_neg]
      rintro (h | ⟨heq, hnone⟩)
      · exact absurd h (not_lt.mpr hge)
      · -- a later version would be the newest one below the bound
        refine hall fun w hw => ?_
        rw [← heq]
        exact le_of_lastBelow hl hsplit hw (fromOn_eq_nil_iff.mp hnone w hw)

end

end chain

lemma versions_write [Inhabited V] [DecidableEq K] (s : Store K V) (w : Write K V) (key : K) :
    (s.write w).versions key =
      if key = w.key then appendVersion (s.versions key) w.version else s.versions key := by
  have happend : s.write w = s.append w.key w.version := by cases w <;> rfl
  rw [happend]
  refine (Function.update_apply ..).trans ?_
  split_ifs with h
  · rw [h]
  · rfl

lemma Write.timestamp_version [Inhabited V] (w : Write K V) :
    w.version.timestamp = w.timestamp := by
  cases w <;> rfl

end Replication.Mvcc
