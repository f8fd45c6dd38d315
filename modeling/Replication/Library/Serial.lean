import Mathlib.Data.List.Induction
import Mathlib.Data.List.Nodup
import Mathlib.Data.List.Pairwise
import Mathlib.Logic.Function.Basic

/-!
# Library · Serial: batches of writes in a serial order

Every transaction writes a batch of keys; a serial order applies the batches one after the other.
-/

namespace Replication.Library

open Function

variable {τ κ β : Type*} [DecidableEq κ]

/-- The map after a batch. -/
def writeAll (m : κ → Option β) (ws : List (κ × β)) : κ → Option β :=
  ws.foldl (fun m w => Function.update m w.1 (some w.2)) m

/-- The empty map after the batches of a serial order. -/
def serial (e : τ → List (κ × β)) (order : List τ) : κ → Option β :=
  order.foldl (fun m t => writeAll m (e t)) fun _ => none

/-- No key is in both batches. -/
def DisjointKeys (ws ws' : List (κ × β)) : Prop := ∀ w ∈ ws, ∀ w' ∈ ws', w.1 ≠ w'.1

variable {m m' : κ → Option β} {ws ws' : List (κ × β)} {k : κ}

/-- The empty batch. -/
lemma writeAll_nil (m : κ → Option β) : writeAll m [] = m := rfl

/-- The first write of a batch. -/
lemma writeAll_cons (m : κ → Option β) (w : κ × β) (ws : List (κ × β)) :
    writeAll m (w :: ws) = writeAll (update m w.1 (some w.2)) ws := rfl

/-- Keys outside the batch keep their values. -/
lemma writeAll_of_forall_ne (h : ∀ w ∈ ws, w.1 ≠ k) : writeAll m ws k = m k := by
  induction ws generalizing m with
  | nil => rfl
  | cons w ws ih =>
    rw [writeAll_cons, ih fun w' hw' => h w' (List.mem_cons_of_mem w hw')]
    exact update_of_ne (h w List.mem_cons_self).symm _ _

/-- The map before the batch matters only for other keys. -/
lemma writeAll_congr (h : m k = m' k ∨ ∃ w ∈ ws, w.1 = k) : writeAll m ws k = writeAll m' ws k := by
  induction ws generalizing m m' with
  | nil =>
    rcases h with h | ⟨w, hw, -⟩
    · exact h
    · cases hw
  | cons w ws ih =>
    rw [writeAll_cons, writeAll_cons]
    apply ih
    by_cases hk : w.1 = k
    · subst hk
      left
      rw [update_self, update_self]
    · rcases h with h | ⟨w', hw', rfl⟩
      · left
        rw [update_of_ne (Ne.symm hk), update_of_ne (Ne.symm hk), h]
      · rcases List.mem_cons.mp hw' with rfl | hw'
        · exact absurd rfl hk
        · exact .inr ⟨w', hw', rfl⟩

/-- **Batches of disjoint keys commute.** -/
theorem writeAll_comm (h : DisjointKeys ws ws') (m : κ → Option β) :
    writeAll (writeAll m ws) ws' = writeAll (writeAll m ws') ws := by
  funext k
  by_cases hk : ∃ w ∈ ws, w.1 = k
  · have hne : ∀ w' ∈ ws', w'.1 ≠ k := by
      obtain ⟨w, hw, rfl⟩ := hk
      exact fun w' hw' => (h w hw w' hw').symm
    rw [writeAll_of_forall_ne hne]
    exact writeAll_congr (.inr hk)
  · have hne : ∀ w ∈ ws, w.1 ≠ k := fun w hw heq => hk ⟨w, hw, heq⟩
    rw [writeAll_of_forall_ne hne]
    exact writeAll_congr (.inl (writeAll_of_forall_ne hne))

section serial

variable {e e' : τ → List (κ × β)} {order : List τ} {t : τ}

/-- The last transaction of an order. -/
lemma serial_append_singleton (e : τ → List (κ × β)) (order : List τ) (t : τ) :
    serial e (order ++ [t]) = writeAll (serial e order) (e t) := by
  unfold serial
  rw [List.foldl_append]
  rfl

/-- Only the batches of the order matter. -/
lemma serial_congr (h : ∀ t ∈ order, e t = e' t) : serial e order = serial e' order := by
  induction order using List.reverseRecOn with
  | nil => rfl
  | append_singleton order t ih =>
    rw [serial_append_singleton, serial_append_singleton, h t (by simp),
      ih fun t' ht' => h t' (List.mem_append_left _ ht')]

/-- **A batch in the middle of the order** can be written last, if the transactions after it write
other keys. -/
theorem serial_update (hnodup : order.Nodup) (ht : t ∈ order) (hnil : e t = [])
    (hother : ∀ t', t' ≠ t → e' t' = e t')
    (hafter : order.Pairwise fun i j => i = t → DisjointKeys (e' t) (e j)) :
    serial e' order = writeAll (serial e order) (e' t) := by
  induction order using List.reverseRecOn with
  | nil => cases ht
  | append_singleton order j ih =>
    obtain ⟨hnodup', -, hdisj⟩ := List.nodup_append.mp hnodup
    obtain ⟨hafter', -, hlast⟩ := List.pairwise_append.mp hafter
    rw [serial_append_singleton, serial_append_singleton]
    by_cases hj : j = t
    · subst hj
      have hnot : ∀ t' ∈ order, e' t' = e t' := fun t' ht' =>
        hother t' (hdisj t' ht' j (List.mem_singleton_self j))
      rw [serial_congr hnot, hnil, writeAll_nil]
    · have ht' : t ∈ order := by
        rcases List.mem_append.mp ht with ht' | ht'
        · exact ht'
        · exact absurd (List.mem_singleton.mp ht').symm hj
      rw [ih hnodup' ht' hafter', hother j hj]
      exact writeAll_comm (hlast t ht' j (List.mem_singleton_self j) rfl) _

end serial

end Replication.Library
