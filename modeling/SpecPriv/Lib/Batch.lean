/-
  Batches in an array: a buffer of `N` entries that is filled from an index
  on and emptied as a whole, unused entries holding a padding value.

  `Pending pad data index xs`: the entries `xs` wait in `data`; the last of
  them is the one before `index`, and every other entry is padding.  The
  first of them need not be entry `0`: a batch may start where the batch
  before it ended.
-/
import Mathlib.Order.Nat

namespace Batch

variable {α : Type*} {N : ℕ} {pad : α} {data : Vector α N} {index : ℕ} {xs : List α}

/-- `xs` waits in the entries before `index`, the rest is padding. -/
def Pending (pad : α) (data : Vector α N) (index : ℕ) (xs : List α) : Prop :=
  ∃ k r, data.toList = List.replicate k pad ++ xs ++ List.replicate r pad ∧ index = k + xs.length

/-- An array of padding has nothing waiting, wherever the index is. -/
theorem pending_replicate (h : index ≤ N) : Pending pad (Vector.replicate N pad) index [] :=
  ⟨index, N - index, by simp [Vector.toList_replicate, h], rfl⟩

namespace Pending

theorem index_le (h : Pending pad data index xs) : index ≤ N := by
  obtain ⟨k, r, hd, rfl⟩ := h
  have hlen := congrArg List.length hd
  simp only [Vector.length_toList, List.length_append, List.length_replicate] at hlen
  omega

theorem length_le (h : Pending pad data index xs) : xs.length ≤ index := by
  obtain ⟨k, r, -, rfl⟩ := h
  exact Nat.le_add_left _ _

/-- With the index at `0` nothing is waiting. -/
theorem nil_of_zero (h : Pending pad data 0 xs) : xs = [] :=
  List.eq_nil_of_length_eq_zero (Nat.le_zero.1 h.length_le)

/-- Storing at the index appends to what is waiting. -/
theorem store (h : Pending pad data index xs) (hi : index < N) (x : α) :
    Pending pad (data.setIfInBounds index x) (index + 1) (xs ++ [x]) := by
  obtain ⟨k, r, hd, rfl⟩ := h
  have hlen := congrArg List.length hd
  simp only [Vector.length_toList, List.length_append, List.length_replicate] at hlen
  obtain ⟨r, rfl⟩ : ∃ r', r = r' + 1 := ⟨r - 1, by omega⟩
  refine ⟨k, r, ?_, by simp [Nat.add_assoc]⟩
  rw [Vector.toList_setIfInBounds, hd, List.set_append_right _ _ (by simp)]
  simp [List.replicate_succ]

/-- The entries that are not padding are those waiting, in order. -/
theorem filter_ne [DecidableEq α] (h : Pending pad data index xs) (hx : ∀ x ∈ xs, x ≠ pad) :
    data.toList.filter (· ≠ pad) = xs := by
  obtain ⟨k, r, hd, -⟩ := h
  have hxs : xs.filter (· ≠ pad) = xs := List.filter_eq_self.2 fun x h => by simp [hx x h]
  rw [hd, List.filter_append, List.filter_append, hxs]
  simp

end Pending

end Batch
