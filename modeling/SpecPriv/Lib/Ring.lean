/-
  Rings with a flag for every slot.

  A ring of `cap` slots holds a queue between two positions that wrap around.
  Full and empty rings have the same positions and are told apart by the flags
  of the slots; what the value of a free slot is does not matter.

  `Holds cap flag val head tail xs` says that the ring holds the queue `xs`;
  `push` and `pop` say what storing and freeing a slot does to the queue.
-/
import Mathlib.Data.Nat.ModEq
import Mathlib.Logic.Function.Basic

namespace Ring

variable {α : Type*}

/-- The slot at a distance from a position. -/
def slot (cap p i : ℕ) : ℕ := (p + i) % cap

/-- The ring holds the queue `xs`, oldest value first. -/
structure Holds (cap : ℕ) (flag : ℕ → Bool) (val : ℕ → α) (head tail : ℕ) (xs : List α) : Prop where
  tail_lt : tail < cap
  length_le : xs.length ≤ cap
  head_eq : head = slot cap tail xs.length
  /-- exactly the slots of the queue are flagged -/
  flag_iff : ∀ i < cap, flag (slot cap tail i) ↔ i < xs.length
  val_eq : ∀ i (h : i < xs.length), val (slot cap tail i) = xs[i]

variable {cap : ℕ} {flag : ℕ → Bool} {val : ℕ → α} {head tail : ℕ} {x v : α} {xs : List α}

theorem slot_zero {p : ℕ} (hp : p < cap) : slot cap p 0 = p := Nat.mod_eq_of_lt hp

theorem slot_lt {p i : ℕ} (hc : 0 < cap) : slot cap p i < cap := Nat.mod_lt _ hc

/-- Going on from a slot. -/
theorem slot_slot {p i j : ℕ} : slot cap (slot cap p i) j = slot cap p (i + j) := by
  rw [slot, slot, slot, Nat.mod_add_mod, Nat.add_assoc]

/-- Different distances below `cap` give different slots. -/
theorem slot_inj {p i j : ℕ} (hi : i < cap) (hj : j < cap) :
    slot cap p i = slot cap p j ↔ i = j := by
  constructor
  · intro h
    have hmod : i % cap = j % cap := Nat.ModEq.add_left_cancel' p h
    rwa [Nat.mod_eq_of_lt hi, Nat.mod_eq_of_lt hj] at hmod
  · rintro rfl
    rfl

namespace Holds

theorem cap_pos (h : Holds cap flag val head tail xs) : 0 < cap := by
  have := h.tail_lt
  omega

theorem head_lt (h : Holds cap flag val head tail xs) : head < cap := by
  rw [h.head_eq]
  exact slot_lt h.cap_pos

/-- The slot at the tail says whether the queue is empty, also when the ring
    is full. -/
theorem flag_tail (h : Holds cap flag val head tail xs) : flag tail ↔ xs ≠ [] := by
  have := h.flag_iff 0 h.cap_pos
  rw [slot_zero h.tail_lt] at this
  rw [this, List.length_pos_iff]

theorem nil (hc : tail < cap) (hf : ∀ i < cap, ¬ flag i) : Holds cap flag val tail tail [] where
  tail_lt := hc
  length_le := Nat.zero_le _
  head_eq := (slot_zero hc).symm
  flag_iff i _ := iff_of_false (hf _ (slot_lt (by omega))) (Nat.not_lt_zero i)
  val_eq i h := absurd h (Nat.not_lt_zero i)

/-- The slot at the head is none of the others. -/
theorem slot_eq_head (h : Holds cap flag val head tail xs) (hlt : xs.length < cap) {i : ℕ}
    (hi : i < cap) : slot cap tail i = head ↔ i = xs.length := by
  rw [h.head_eq, slot_inj hi hlt]

theorem push (h : Holds cap flag val head tail xs) (hlt : xs.length < cap) (v : α) :
    Holds cap (Function.update flag head true) (Function.update val head v) (slot cap head 1) tail
      (xs ++ [v]) where
  tail_lt := h.tail_lt
  length_le := by
    rw [List.length_append]
    exact hlt
  head_eq := by rw [h.head_eq, slot_slot, List.length_append, List.length_singleton]
  flag_iff i hi := by
    rw [Function.update_apply, List.length_append, List.length_singleton]
    split_ifs with heq
    · have := (h.slot_eq_head hlt hi).1 heq
      exact iff_of_true rfl (by omega)
    · have := mt (h.slot_eq_head hlt hi).2 heq
      rw [h.flag_iff i hi]
      omega
  val_eq i hi := by
    rw [List.length_append, List.length_singleton] at hi
    rw [Function.update_apply]
    split_ifs with heq
    · obtain rfl := (h.slot_eq_head hlt (by omega)).1 heq
      rw [List.getElem_concat_length rfl]
    · have := mt (h.slot_eq_head hlt (by omega)).2 heq
      rw [h.val_eq i (by omega), List.getElem_append_left]

/-- Take the oldest value; its slot becomes free, whatever is stored there. -/
theorem pop {val' : ℕ → α} (h : Holds cap flag val head tail (x :: xs))
    (hval : ∀ i ≠ tail, val' i = val i) :
    Holds cap (Function.update flag tail false) val' head (slot cap tail 1) xs := by
  have hlen : xs.length < cap := h.length_le
  have hne {i : ℕ} (hi : 1 + i < cap) : slot cap tail (1 + i) ≠ tail := by
    rw [← slot_zero h.tail_lt, slot_slot, Ne, slot_inj (by omega) h.cap_pos]
    omega
  refine ⟨slot_lt h.cap_pos, hlen.le, ?_, ?_, ?_⟩
  · rw [slot_slot, h.head_eq, List.length_cons, Nat.add_comm]
  · intro i hi
    rw [slot_slot]
    by_cases hlast : 1 + i = cap
    · -- the slot that was freed
      have htail : slot cap tail (1 + i) = tail := by
        rw [hlast, slot, Nat.add_mod_right, Nat.mod_eq_of_lt h.tail_lt]
      rw [htail, Function.update_self]
      simp only [Bool.false_eq_true, false_iff]
      omega
    · rw [Function.update_of_ne (hne (by omega)), h.flag_iff (1 + i) (by omega), List.length_cons]
      omega
  · intro i hi
    rw [slot_slot, hval _ (hne (by omega)), Nat.add_comm 1 i,
      h.val_eq (i + 1) (Nat.succ_lt_succ hi), List.getElem_cons_succ]

theorem val_tail (h : Holds cap flag val head tail (x :: xs)) : val tail = x := by
  have := h.val_eq 0 (Nat.succ_pos _)
  rwa [slot_zero h.tail_lt] at this

end Holds

end Ring
