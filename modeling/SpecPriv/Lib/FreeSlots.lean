/-
  A free slot of a ring, searched for from a position that rotates.

  The slots `0`, …, `cap - 1` form a ring, `slot cap i k` being the one `k`
  steps after `i`; `succ cap` is one step, with the wrap-around written as a
  comparison.  `search` tests slots one by one until a free one is found.

  * `FirstFree free cap i k`: the first free slot at or after `i` is `k` steps
    away;
  * `exists_firstFree`: there is one unless all slots are busy;
  * `search_eq`: the search ends with it, after `k + 1` probes.
-/
import Mathlib.Data.Nat.Find
import SpecPriv.Lib.Ring

namespace FreeSlots

open Ring

/-- The next slot. -/
def succ (cap i : ℕ) : ℕ := if i + 1 ≥ cap then 0 else i + 1

/-- Test slots from `i` on until a free one is found, with fuel for each
    probe. -/
def search (free : ℕ → Bool) (cap : ℕ) : ℕ → ℕ → Option ℕ
  | 0, _ => none
  | fuel + 1, i => if free i then some i else search free cap fuel (succ cap i)

/-- The first free slot at or after `i` is `k` steps away. -/
structure FirstFree (free : ℕ → Bool) (cap i k : ℕ) : Prop where
  lt : k < cap
  free_slot : free (slot cap i k) = true
  busy : ∀ j < k, free (slot cap i j) = false

variable {free : ℕ → Bool} {cap i j k r : ℕ}

theorem succ_eq (h : i < cap) : succ cap i = slot cap i 1 := by
  unfold succ slot
  split_ifs with hwrap
  · rw [show i + 1 = cap by omega, Nat.mod_self]
  · rw [Nat.mod_eq_of_lt (by omega)]

theorem succ_lt (h : i < cap) : succ cap i < cap := by
  rw [succ_eq h]
  exact slot_lt (by omega)

theorem succ_slot (h : i < cap) (k : ℕ) : succ cap (slot cap i k) = slot cap i (k + 1) := by
  rw [succ_eq (slot_lt (by omega)), slot_slot]

/-- Every slot is some steps away from every other. -/
theorem exists_slot_eq (hi : i < cap) (hr : r < cap) : ∃ k < cap, slot cap i k = r := by
  refine ⟨(r + cap - i) % cap, Nat.mod_lt _ (by omega), ?_⟩
  rw [slot, Nat.add_mod_mod, show i + (r + cap - i) = r + cap by omega, Nat.add_mod_right,
    Nat.mod_eq_of_lt hr]

theorem exists_firstFree (hi : i < cap) (h : ∃ r < cap, free r = true) :
    ∃ k, FirstFree free cap i k := by
  obtain ⟨r, hr, hfree⟩ := h
  obtain ⟨k, hk, rfl⟩ := exists_slot_eq hi hr
  have hex : ∃ k, free (slot cap i k) = true := ⟨k, hfree⟩
  refine ⟨Nat.find hex, ?_, Nat.find_spec hex, ?_⟩
  · exact (Nat.find_min' hex hfree).trans_lt hk
  · intro j hj
    exact Bool.eq_false_of_not_eq_true (Nat.find_min hex hj)

/-- One step of the search: the slot is free, or the rest of the way starts at
    the next slot. -/
theorem FirstFree.step (hi : i < cap) (h : FirstFree free cap i (k + 1)) :
    free i = false ∧ FirstFree free cap (succ cap i) k := by
  have h0 := h.busy 0 (Nat.succ_pos k)
  rw [slot_zero hi] at h0
  refine ⟨h0, ?_, ?_, ?_⟩
  · exact (Nat.lt_succ_self k).trans h.lt
  · rw [succ_eq hi, slot_slot, Nat.add_comm]
    exact h.free_slot
  · intro j hj
    rw [succ_eq hi, slot_slot, Nat.add_comm]
    exact h.busy (j + 1) (Nat.succ_lt_succ hj)

theorem FirstFree.zero (hi : i < cap) (h : FirstFree free cap i 0) : free i = true := by
  have h0 := h.free_slot
  rwa [slot_zero hi] at h0

/-- The search finds the first free slot within as many probes as there are
    slots. -/
theorem search_eq (hi : i < cap) (h : FirstFree free cap i k) {fuel : ℕ} (hfuel : k < fuel) :
    search free cap fuel i = some (slot cap i k) := by
  induction k generalizing i fuel with
  | zero =>
    obtain ⟨fuel, rfl⟩ := Nat.exists_eq_add_of_lt hfuel
    rw [Nat.zero_add, search, if_pos (h.zero hi), slot_zero hi]
  | succ k ih =>
    obtain ⟨fuel, rfl⟩ := Nat.exists_eq_add_of_lt hfuel
    obtain ⟨hbusy, hrest⟩ := h.step hi
    rw [search, if_neg (by simp [hbusy]), ih (succ_lt hi) hrest (by omega), succ_eq hi, slot_slot,
      Nat.add_comm 1 k]

end FreeSlots
