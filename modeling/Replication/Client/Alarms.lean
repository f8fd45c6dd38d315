import Replication.Checker.Exactness
import Replication.Client.History
import Replication.Leaderless.Cluster

/-!
# Client · Alarms: when a reported violation is a real one

The recorded history leaves out deletes, and writes that have returned an error or have not returned
yet. A write that returned an error can still take effect, and a read that returns its value cannot
be explained by what is recorded.
-/

namespace Replication.Client

open Checker Library List

variable {S A τ : Type} {B : Backend S A τ} {s : Frontend S}

/-! ### Calls -/

/-- The call is a read, and has returned what another call was to write: one that was made before
the read returned, and has not returned or has returned an error. -/
def Call.readsUnrecorded (c w : Call) : Bool :=
  match c.status, c.request with
  | .succeeded finishedAt _ value, .read key =>
    !w.happened && decide (w.request = .write key value) && decide (w.invokedAt ≤ finishedAt)
  | _, _ => false

/-- No read has returned what an unrecorded write was to write. -/
def Frontend.accounted (s : Frontend S) : Bool :=
  s.calls.all fun c => s.calls.all fun w => !c.readsUnrecorded w

section calls

variable {c : Call} {time : ℕ} {complete : ℤ} {outcome : Outcome}

lemma recorded_of_not_happened (h : c.happened = false) : c.recorded = none := by
  unfold Call.happened at h
  unfold Call.recorded
  split at h
  · cases h
  next hne =>
    split
    · next hstatus _ => exact absurd hstatus (hne _ _ _)
    · next hstatus _ => exact absurd hstatus (hne _ _ _)
    · rfl

/-- Only a call that succeeded is recorded. -/
lemma recorded_eq_some {op : Op} (h : c.recorded = some op) :
    ∃ t r v, c.status = .succeeded t r v ∧ op.invoke = c.invoke ∧ op.complete = r ∧
      (c.request = .write op.key op.value ∧ op.kind = .write ∨
        c.request = .read op.key ∧ op.value = v ∧ op.kind = .read) := by
  unfold Call.recorded at h
  split at h
  · next hstatus hrequest =>
      cases h
      exact ⟨_, _, _, hstatus, rfl, rfl, .inl ⟨hrequest, rfl⟩⟩
  · next hstatus hrequest =>
      cases h
      exact ⟨_, _, _, hstatus, rfl, rfl, .inr ⟨hrequest, rfl, rfl⟩⟩
  · cases h

lemma finish_same : (c.finish time complete outcome).invokedAt = c.invokedAt ∧
    (c.finish time complete outcome).invoke = c.invoke := by
  cases outcome <;> exact ⟨rfl, rfl⟩

lemma status_finish {t : ℕ} {r : ℤ} {v : String}
    (h : (c.finish time complete outcome).status = .succeeded t r v) : t = time ∧ r = complete := by
  cases outcome with
  | error => cases h
  | ok =>
    cases h
    exact ⟨rfl, rfl⟩

end calls

/-! ### The invariant -/

/-- What holds of the recorded history and of the clock readings in it. -/
structure HistoryInv (s : Frontend S) : Prop where
  /-- The writes and reads that returned no error are recorded. -/
  history : s.history.Perm (s.calls.filterMap Call.recorded)
  clock_le : s.clock ≤ maxInt64
  invoked : ∀ c ∈ s.calls, c.invoke ≤ s.clock
  finished : ∀ c ∈ s.calls, ∀ t r v, c.status = .succeeded t r v →
    t < s.time ∧ c.invoke ≤ r ∧ r ≤ s.clock
  ordered : ∀ a ∈ s.calls, ∀ b ∈ s.calls, ∀ t r v, a.status = .succeeded t r v →
    b.invokedAt ≤ t → b.invoke ≤ r

lemma historyInv_new (backend : S) : HistoryInv (Frontend.new backend) where
  history := List.Perm.nil
  clock_le := show (0 : ℤ) ≤ maxInt64 by decide
  invoked _ h := absurd h not_mem_nil
  finished _ h := absurd h not_mem_nil
  ordered _ h := absurd h not_mem_nil

/-- A client makes a call. -/
lemma HistoryInv.makeCall (h : HistoryInv s) (clientID : String) (target : τ) (request : Request)
    {t : ℤ} (hclock : s.clock ≤ t) (hmax : t ≤ maxInt64) :
    HistoryInv (s.makeCall B clientID target request t) := by
  have hstatus : ∀ t' r v, (if (B.call s.backend target request).2 = none then Status.failed
      else .running) ≠ .succeeded t' r v := by
    intro t' r v
    split_ifs <;> simp
  dsimp only [Frontend.makeCall]
  generalize (if (B.call s.backend target request).2 = none then Status.failed
    else Status.running) = status at hstatus
  refine ⟨?_, hmax, fun c hc => ?_, fun c hc t' r v hst => ?_,
    fun a ha b hb t' r v hst hle => ?_⟩
  · have hnone : Call.recorded ⟨clientID, request, (B.call s.backend target request).2, s.time,
        t, status⟩ = none := by
      refine recorded_of_not_happened ?_
      unfold Call.happened
      split
      · next heq => exact absurd heq (hstatus _ _ _)
      · rfl
    rw [filterMap_append, filterMap_cons_none hnone, filterMap_nil, append_nil]
    exact h.history
  · rcases mem_append.mp hc with hc | hc
    · exact (h.invoked c hc).trans hclock
    · rw [mem_singleton.mp hc]
  · rcases mem_append.mp hc with hc | hc
    · obtain ⟨hlt, hle, hle'⟩ := h.finished c hc t' r v hst
      exact ⟨hlt.trans (Nat.lt_succ_self _), hle, hle'.trans hclock⟩
    · rw [mem_singleton.mp hc] at hst
      exact absurd hst (hstatus _ _ _)
  · rcases mem_append.mp ha with ha | ha
    · rcases mem_append.mp hb with hb | hb
      · exact h.ordered a ha b hb t' r v hst hle
      · -- the new call is made after all returns
        have hlt := (h.finished a ha t' r v hst).1
        rw [mem_singleton.mp hb] at hle
        exact absurd hle (not_le.mpr hlt)
    · rw [mem_singleton.mp ha] at hst
      exact absurd hst (hstatus _ _ _)

lemma perm_filterMap_set {calls : List Call} {i : ℕ} {c c' : Call} (hi : calls[i]? = some c)
    (hc : c.recorded = none) :
    (calls.filterMap Call.recorded ++ c'.recorded.toList).Perm
      ((calls.set i c').filterMap Call.recorded) := by
  obtain ⟨hlt, rfl⟩ := List.getElem?_eq_some_iff.mp hi
  have hset := (set_perm_cons_eraseIdx hlt c').filterMap Call.recorded
  have hget := (getElem_cons_eraseIdx_perm hlt).filterMap Call.recorded
  rw [filterMap_cons_none hc] at hget
  refine List.Perm.trans ?_ hset.symm
  refine (hget.symm.append_right _).trans ?_
  cases hop : c'.recorded with
  | none => rw [filterMap_cons_none hop, Option.toList_none, append_nil]
  | some =>
    rw [filterMap_cons_some hop]
    exact perm_append_singleton _ _

lemma exists_of_mem_set {calls : List Call} {i : ℕ} {c x : Call} {time : ℕ} {complete : ℤ}
    {outcome : Outcome} (hi : calls[i]? = some c)
    (hx : x ∈ calls.set i (c.finish time complete outcome)) :
    ∃ x₀ ∈ calls, x.invokedAt = x₀.invokedAt ∧ x.invoke = x₀.invoke := by
  rcases mem_or_eq_of_mem_set hx with hx | rfl
  · exact ⟨x, hx, rfl, rfl⟩
  · exact ⟨c, mem_of_getElem? hi, finish_same⟩

/-- A call returns. -/
lemma HistoryInv.finishCall (h : HistoryInv s) (i : ℕ) {t : ℤ} (hclock : s.clock ≤ t)
    (hmax : t ≤ maxInt64) : HistoryInv (s.finishCall B i t) := by
  unfold Frontend.finishCall
  cases hi : s.calls[i]? with
  | none => exact h
  | some c =>
    cases hres : s.result B c with
    | none =>
      dsimp only
      rw [hres]
      exact h
    | some =>
      dsimp only
      rw [hres]
      have hrunning : c.status = .running := by
        unfold Frontend.result at hres
        split_ifs at hres with hst
        exact hst
      have hnot : c.happened = false := by rw [Call.happened, hrunning]
      refine ⟨?_, hmax, fun x hx => ?_, fun x hx t' r v hst => ?_,
        fun a ha b hb t' r v hst hle => ?_⟩
      · exact (h.history.append_right _).trans
          (perm_filterMap_set hi (recorded_of_not_happened hnot))
      · obtain ⟨x₀, hx₀, -, hinvoke⟩ := exists_of_mem_set hi hx
        rw [hinvoke]
        exact (h.invoked x₀ hx₀).trans hclock
      · rcases mem_or_eq_of_mem_set hx with hx | rfl
        · obtain ⟨hlt, hle, hle'⟩ := h.finished x hx t' r v hst
          exact ⟨hlt.trans (Nat.lt_succ_self _), hle, hle'.trans hclock⟩
        · obtain ⟨rfl, rfl⟩ := status_finish hst
          rw [finish_same.2]
          exact ⟨Nat.lt_succ_self _, (h.invoked c (mem_of_getElem? hi)).trans hclock,
            le_rfl⟩
      · obtain ⟨b₀, hb₀, hat, hinvoke⟩ := exists_of_mem_set hi hb
        rw [hat] at hle
        rw [hinvoke]
        rcases mem_or_eq_of_mem_set ha with ha | rfl
        · exact h.ordered a ha b₀ hb₀ t' r v hst hle
        · obtain ⟨-, rfl⟩ := status_finish hst
          exact (h.invoked b₀ hb₀).trans hclock

/-- **A step keeps the invariant**, if the clock does not go back. -/
theorem historyInv_step (a : Action A τ) (hclock : s.ClockForward a) (h : HistoryInv s) :
    HistoryInv (s.step B a) := by
  cases a with
  | act =>
    refine ⟨h.history, h.clock_le, h.invoked, fun c hc t r v hst => ?_, h.ordered⟩
    obtain ⟨hlt, hle⟩ := h.finished c hc t r v hst
    exact ⟨hlt.trans (Nat.lt_succ_self _), hle⟩
  | call clientID target request => exact h.makeCall clientID target request hclock.1 hclock.2
  | finish i => exact h.finishCall i hclock.1 hclock.2

/-! ### The record of a linearizable history -/

/-- The store after calls that take effect in this order. -/
def storeAfter (l : List Call) : String → Option String :=
  l.foldl (fun store c => c.effect store) fun _ => none

lemma legal_of_serial {before after : List Call} {c : Call} {store : String → Option String}
    (h : Serial store (before ++ c :: after)) :
    c.Legal (before.foldl (fun store c => c.effect store) store) := by
  induction before generalizing store with
  | nil => exact h.1
  | cons b before ih => exact ih h.2

lemma lastValue_append (key : String) (l : List Op) (op : Op) : lastValue key (l ++ [op]) =
    if op.kind = .write ∧ op.key = key then op.value else lastValue key l := by
  rw [lastValue, foldl_append]
  rfl

lemma lastValue_recorded_append {l : List Call} {c : Call} {key : String}
    (hc : ∀ v, c.request ≠ .write key v) :
    lastValue key ((l ++ [c]).filterMap Call.recorded) =
      lastValue key (l.filterMap Call.recorded) := by
  rw [filterMap_append]
  cases hop : c.recorded with
  | none => rw [filterMap_cons_none hop, filterMap_nil, append_nil]
  | some =>
    rw [filterMap_cons_some hop, filterMap_nil, lastValue_append, if_neg]
    rintro ⟨hkind, rfl⟩
    obtain ⟨t, r, v, -, -, -, ⟨hrequest, -⟩ | ⟨-, -, hread⟩⟩ := recorded_eq_some hop
    · exact hc _ hrequest
    · simp [hkind] at hread

/-- **The record shows a value that is not that of an unrecorded write.** -/
theorem lastValue_recorded {l : List Call} {key value : String}
    (hstore : storeAfter l key = some value)
    (hrecorded : ∀ w ∈ l, w.request = .write key value → w.happened = true) :
    lastValue key (l.filterMap Call.recorded) = value := by
  induction l using List.reverseRecOn with
  | nil => cases hstore
  | append_singleton l c ih =>
    have ih := fun h => ih h fun w hw => hrecorded w (mem_append_left [c] hw)
    have hstep : storeAfter (l ++ [c]) key = c.effect (storeAfter l) key := by
      rw [storeAfter, foldl_append]
      rfl
    rw [hstep] at hstore
    unfold Call.effect at hstore
    cases hrequest : c.request with
    | write =>
      simp only [hrequest, Function.update_apply] at hstore
      split_ifs at hstore with hk
      · -- the latest write
        subst hk
        cases hstore
        have hmem : c ∈ l ++ [c] := mem_append_right l mem_cons_self
        have hhappened := hrecorded c hmem hrequest
        cases hstatus : c.status with
        | succeeded t r =>
          have hop : c.recorded = some ⟨c.clientID, .write, value, key, c.invoke, r⟩ := by
            simp only [Call.recorded, hstatus, hrequest]
          rw [filterMap_append, filterMap_cons_some hop, filterMap_nil,
            lastValue_append, if_pos ⟨rfl, rfl⟩]
        | running | failed => simp [Call.happened, hstatus] at hhappened
      · rw [lastValue_recorded_append fun x hx => ?_, ih hstore]
        cases hrequest.symm.trans hx
        exact hk rfl
    | delete =>
      simp only [hrequest, Function.update_apply] at hstore
      split_ifs at hstore with hk
      rw [lastValue_recorded_append fun x hx => ?_, ih hstore]
      cases hrequest.symm.trans hx
    | read =>
      simp only [hrequest] at hstore
      rw [lastValue_recorded_append fun x hx => ?_, ih hstore]
      cases hrequest.symm.trans hx

lemma invokedAt_of_accounted (h : s.accounted = true) {c w : Call} (hc : c ∈ s.calls)
    (hw : w ∈ s.calls) {key v : String} {t : ℕ} {r : ℤ} (hrequest : c.request = .read key)
    (hst : c.status = .succeeded t r v) (hno : w.happened = false)
    (hwrite : w.request = .write key v) : t < w.invokedAt := by
  have hall := all_eq_true.mp (all_eq_true.mp h c hc) w hw
  by_contra hle
  simp [Call.readsUnrecorded, hst, hrequest, hno, hwrite, not_lt.mp hle] at hall

section record

variable {effective l : List Call}

lemma mem_calls_of_perm (hsub : effective.Sublist (s.calls.filter Call.mayHappen))
    (hperm : l.Perm (s.calls.filter Call.happened ++ effective)) {c : Call} (hc : c ∈ l) :
    c ∈ s.calls := by
  rcases mem_append.mp (hperm.mem_iff.mp hc) with hc | hc
  · exact (mem_filter.mp hc).1
  · exact (mem_filter.mp (hsub.mem hc)).1

/-- An order of the calls orders the history. -/
lemma perm_recorded (hsub : effective.Sublist (s.calls.filter Call.mayHappen))
    (hperm : l.Perm (s.calls.filter Call.happened ++ effective)) :
    (l.filterMap Call.recorded).Perm (s.calls.filterMap Call.recorded) := by
  have hnone : effective.filterMap Call.recorded = [] := by
    refine filterMap_eq_nil_iff.mpr fun c hc => recorded_of_not_happened ?_
    have hmay := (mem_filter.mp (hsub.mem hc)).2
    unfold Call.mayHappen at hmay
    unfold Call.happened
    split
    · next hstatus => simp [hstatus] at hmay
    · rfl
  have hall : (s.calls.filter Call.happened).filterMap Call.recorded =
      s.calls.filterMap Call.recorded := by
    rw [filterMap_filter]
    refine filterMap_congr fun c _ => ?_
    by_cases hc : c.happened = true
    · rw [if_pos hc]
    · rw [if_neg hc, recorded_of_not_happened (Bool.not_eq_true _ ▸ hc)]
  have h := hperm.filterMap Call.recorded
  rwa [filterMap_append, hnone, hall, append_nil] at h

end record

/-- **A real history that is linearizable leaves a record that is.** -/
theorem linearizable_history (h : HistoryInv s) (hacc : s.accounted = true)
    (hreal : s.RealLinearizable) : Linearizable s.history := by
  obtain ⟨effective, hsub, l, hperm, hrt, hserial⟩ := hreal
  have hcalls := fun {c} => mem_calls_of_perm hsub hperm (c := c)
  refine ⟨l.filterMap Call.recorded, (perm_recorded hsub hperm).trans h.history.symm, ?_, ?_⟩
  · refine pairwise_filterMap.mpr (hrt.imp_of_mem fun {a b} ha hb hnot opa hopa opb hopb => ?_)
    -- the clock follows real time
    intro hlt
    obtain ⟨t, r, v, -, hinvoke, -⟩ := recorded_eq_some hopa
    obtain ⟨t', r', v', hst, -, hcomplete, -⟩ := recorded_eq_some hopb
    rw [hinvoke, hcomplete] at hlt
    refine hnot ?_
    unfold Call.Before
    rw [hst]
    by_contra hle
    have hle' := h.ordered b (hcalls hb) a (hcalls ha) t' r' v' hst (not_lt.mp hle)
    exact absurd hle' (not_le.mpr hlt)
  · intro before op after heq hread
    obtain ⟨l₁, l₂, rfl, rfl, htail⟩ := filterMap_eq_append_iff.mp heq
    obtain ⟨l₃, c, l₄, rfl, hnone, hop, -⟩ := filterMap_eq_cons_iff.mp htail
    obtain ⟨t, r, v, hst, -, -, ⟨-, hwrite⟩ | ⟨hrequest, rfl, -⟩⟩ := recorded_eq_some hop
    · simp [hread] at hwrite
    rw [← append_assoc] at hserial hrt
    have hlegal := legal_of_serial hserial
    unfold Call.Legal at hlegal
    rw [hst, hrequest] at hlegal
    have hbefore : (l₁ ++ l₃).filterMap Call.recorded = l₁.filterMap Call.recorded := by
      rw [filterMap_append, filterMap_eq_nil_iff.mpr hnone, append_nil]
    rw [← hbefore]
    refine (lastValue_recorded hlegal fun w hw hwrite => ?_).symm
    -- an unrecorded write of the value was made after the read
    by_contra hno
    have hc : c ∈ s.calls := hcalls (by simp)
    have hw' : w ∈ s.calls := hcalls (by rw [← append_assoc]; exact mem_append_left _ hw)
    have hnot := (pairwise_append.mp hrt).2.2 w hw c mem_cons_self
    refine hnot ?_
    unfold Call.Before
    rw [hst]
    exact invokedAt_of_accounted hacc hc hw' hrequest hst (Bool.not_eq_true _ ▸ hno) hwrite

lemma HistoryInv.in_range (h : HistoryInv s) {op : Op} (hop : op ∈ s.history) :
    op.invoke ≤ op.complete ∧ op.complete ≤ maxInt64 := by
  obtain ⟨c, hc, hrecorded⟩ := mem_filterMap.mp (h.history.mem_iff.mp hop)
  obtain ⟨t, r, v, hst, hinvoke, hcomplete, -⟩ := recorded_eq_some hrecorded
  obtain ⟨-, hle, hle'⟩ := h.finished c hc t r v hst
  rw [hinvoke, hcomplete]
  exact ⟨hle, hle'.trans h.clock_le⟩

/-! ### Leaderless nodes -/

section leaderless

open Leaderless (LeaderlessNode)
open HashRing (Hashing fnv)

/-- What a call of the leaderless cluster returns to its client. -/
def callOutcome : Leaderless.Call String String String → Option Outcome
  | .write c => c.result.map fun
      | .ok => .ok ""
      | .quorumNotMet _ _ _ => .error
  | .read c => c.result.map fun
      | .found best => .ok best.value
      | _ => .error

/-- A request as an action of the leaderless cluster. -/
def leaderlessCall (n : String) (wallNanos : ℤ) :
    Request → Leaderless.Action String String String
  | .write key value => .write n key value wallNanos
  | .delete key => .delete n key wallNanos
  | .read key => .read n key

/-- Leaderless nodes. A call goes to a node, at a wall reading, and a paused node refuses it. -/
def leaderless (H : Hashing String String) :
    Backend (Leaderless.Cluster String String String) (Leaderless.Action String String String)
      (String × ℤ) where
  act := Leaderless.Cluster.step H
  call s target request :=
    (s.step H (leaderlessCall target.1 target.2 request),
      if (s.nodes target.1).state.isPaused then none else some s.calls.length)
  outcome s i := (s.calls[i]?).bind callOutcome

/-- Two nodes with `N = 2` and `R = 1`. -/
private def quorumNodes (w : ℕ) : Leaderless.Cluster String String String :=
  .init fun id => (LeaderlessNode.new fnv id ⟨2, w, 1⟩).setAllNodes fnv ["n1", "n2"]

/-- A write on `n1` that `n2` does not receive and that fails, and a read on `n1`. -/
private def failedWrite : List (Action (Leaderless.Action String String String) (String × ℤ)) :=
  [.call "a" ("n1", 5) (.write "x" "1") 10, .act (.advance 0 (.go 5 [])),
    .act (.advance 0 (.go 5 [])), .act (.drop 0), .act (.advance 0 .timeout), .finish 0 20,
    .call "b" ("n1", 6) (.read "x") 30, .act (.advance 1 (.go 6 [])),
    .act (.advance 1 (.go 6 [])), .act (.advance 1 (.go 6 [])), .act (.advance 1 (.go 6 [])),
    .finish 1 40]

private lemma failedWrite_result :
    let s := run (Frontend.step (leaderless fnv)) (Frontend.new (quorumNodes 2)) failedWrite
    (s.calls, s.history) = ([⟨"a", .write "x" "1", some 0, 0, 10, .failed⟩,
      ⟨"b", .read "x", some 1, 6, 30, .succeeded 11 40 "1"⟩],
      [⟨"b", .read, "1", "x", 30, 40⟩]) := by
  decide +kernel

/-- A write that both nodes receive, one that `n2` does not receive, and a read on `n2`. -/
private def staleRead : List (Action (Leaderless.Action String String String) (String × ℤ)) :=
  [.call "a" ("n1", 5) (.write "x" "1") 10, .act (.advance 0 (.go 5 [])),
    .act (.advance 0 (.go 5 [])), .act (.deliver 0 5), .act (.advance 0 (.go 5 [])), .finish 0 20,
    .call "a" ("n1", 6) (.write "x" "2") 30, .act (.advance 1 (.go 6 [])),
    .act (.advance 1 (.go 6 [])), .act (.advance 1 (.go 6 [])), .finish 1 40,
    .call "b" ("n2", 7) (.read "x") 50, .act (.advance 2 (.go 7 [])),
    .act (.advance 2 (.go 7 [])), .act (.advance 2 (.go 7 [])), .act (.advance 2 (.go 7 [])),
    .finish 2 60]

private lemma staleRead_result :
    let s := run (Frontend.step (leaderless fnv)) (Frontend.new (quorumNodes 1)) staleRead
    (s.calls, s.history) = ([⟨"a", .write "x" "1", some 0, 0, 10, .succeeded 5 20 ""⟩,
      ⟨"a", .write "x" "2", some 1, 6, 30, .succeeded 10 40 ""⟩,
      ⟨"b", .read "x", some 2, 11, 50, .succeeded 16 60 "1"⟩],
      [⟨"a", .write, "1", "x", 10, 20⟩, ⟨"a", .write, "2", "x", 30, 40⟩,
      ⟨"b", .read, "1", "x", 50, 60⟩]) := by
  decide +kernel

end leaderless

end Replication.Client
