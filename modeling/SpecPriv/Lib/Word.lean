/-
  Words made of lanes, and byte-addressed memories that are read and written
  by little-endian words.

  * `lane w j` is the `j`-th lane of width `b` of a word (lane `0` holds the
    least significant bits), `ofLanes` puts a word together from its lanes;
    a word is determined by its lanes (`eq_of_lanes`), and `&&&` acts lane by
    lane (`lane_and`).
  * `Memory.load` and `Memory.store` access the `n` bytes from an address on.
-/
import Mathlib.Data.BitVec

namespace Words

variable {b n : ℕ}

/-- Lane `j` of width `b` of a word. -/
def lane {w : ℕ} (b : ℕ) (x : BitVec w) (j : ℕ) : BitVec b := x.extractLsb' (b * j) b

/-- The word with lanes `f 0`, …, `f (n - 1)`, lane `0` lowest. -/
def ofLanes (b : ℕ) : (n : ℕ) → (ℕ → BitVec b) → BitVec (b * n)
  | 0, _ => 0#0
  | n + 1, f => (ofLanes b n (fun j => f (j + 1)) ++ f 0 : BitVec (b * n + b))

theorem getLsbD_lane {w : ℕ} (x : BitVec w) (j i : ℕ) :
    (lane b x j).getLsbD i = (decide (i < b) && x.getLsbD (b * j + i)) := by
  simp [lane]

theorem getLsbD_ofLanes_succ (f : ℕ → BitVec b) (i : ℕ) :
    (ofLanes b (n + 1) f).getLsbD i =
      if i < b then (f 0).getLsbD i else (ofLanes b n (fun j => f (j + 1))).getLsbD (i - b) :=
  BitVec.getLsbD_append

theorem getLsbD_ofLanes : ∀ (n : ℕ) (f : ℕ → BitVec b) {j i : ℕ}, j < n → i < b →
    (ofLanes b n f).getLsbD (b * j + i) = (f j).getLsbD i
  | n + 1, f, 0, i, _, hi => by rw [getLsbD_ofLanes_succ]; simp [hi]
  | n + 1, f, j + 1, i, hj, hi => by
    have hle : ¬ b * (j + 1) + i < b := by rw [Nat.mul_succ]; omega
    have hsub : b * (j + 1) + i - b = b * j + i := by rw [Nat.mul_succ]; omega
    rw [getLsbD_ofLanes_succ, if_neg hle, hsub]
    exact getLsbD_ofLanes n _ (by omega) hi

@[simp] theorem lane_ofLanes (f : ℕ → BitVec b) {j : ℕ} (hj : j < n) :
    lane b (ofLanes b n f) j = f j := by
  refine BitVec.eq_of_getLsbD_eq ?_
  intro i hi
  rw [getLsbD_lane, getLsbD_ofLanes n f hj hi]
  simp [hi]

/-- A word is determined by its lanes. -/
theorem eq_of_lanes {x y : BitVec (b * n)} (h : ∀ j < n, lane b x j = lane b y j) : x = y := by
  refine BitVec.eq_of_getLsbD_eq ?_
  intro i hi
  have hb : 0 < b := by
    rcases Nat.eq_zero_or_pos b with h0 | hpos
    · subst h0
      simp at hi
    · exact hpos
  have hi' : i < n * b := by rwa [Nat.mul_comm]
  have hj : i / b < n := Nat.div_lt_of_lt_mul hi
  have hr : i % b < b := Nat.mod_lt i hb
  have hlane : (lane b x (i / b)).getLsbD (i % b) = (lane b y (i / b)).getLsbD (i % b) := by
    rw [h _ hj]
  simpa only [getLsbD_lane, hr, decide_true, Bool.true_and, Nat.div_add_mod] using hlane

@[simp] theorem lane_zero (w j : ℕ) : lane b (0#w) j = 0#b := BitVec.extractLsb'_zero

@[simp] theorem lane_and {w : ℕ} (x y : BitVec w) (j : ℕ) :
    lane b (x &&& y) j = lane b x j &&& lane b y j := BitVec.extractLsb'_and

/-- A word is zero iff all its lanes are. -/
theorem eq_zero_iff {x : BitVec (b * n)} : x = 0#(b * n) ↔ ∀ j < n, lane b x j = 0#b := by
  constructor
  · rintro rfl j -
    exact lane_zero _ j
  · intro h
    refine eq_of_lanes ?_
    intro j hj
    rw [h j hj, lane_zero]

/-- The word with the same pattern `c` in every lane. -/
def rep (n : ℕ) (c : BitVec b) : BitVec (b * n) := ofLanes b n fun _ => c

/-- A mask that repeats a pattern tests every lane against the pattern. -/
theorem and_rep_eq_zero_iff {x : BitVec (b * n)} {c : BitVec b} :
    x &&& rep n c = 0#(b * n) ↔ ∀ j < n, lane b x j &&& c = 0#b := by
  rw [eq_zero_iff]
  refine forall₂_congr ?_
  intro j hj
  rw [lane_and, rep, lane_ofLanes _ hj]

end Words

/-! ## Byte-addressed memories -/

/-- A memory maps every address to a byte. -/
abbrev Memory := ℕ → BitVec 8

namespace Memory

open Words

variable (m : Memory) (a : ℕ) {n : ℕ}

/-- The little-endian word in the `n` bytes from `a` on. -/
def load (n : ℕ) : BitVec (8 * n) := ofLanes 8 n fun j => m (a + j)

/-- Store a word in the `n` bytes from `a` on. -/
def store (w : BitVec (8 * n)) : Memory :=
  fun x => if a ≤ x ∧ x < a + n then lane 8 w (x - a) else m x

/-- Overwrite the `n` bytes from `a` on with `f`. -/
def fill (n : ℕ) (f : ℕ → BitVec 8) : Memory :=
  fun x => if a ≤ x ∧ x < a + n then f (x - a) else m x

@[simp] theorem lane_load {j : ℕ} (hj : j < n) : lane 8 (load m a n) j = m (a + j) :=
  lane_ofLanes _ hj

theorem load_eq_zero_iff : load m a n = 0#(8 * n) ↔ ∀ j < n, m (a + j) = 0#8 := by
  rw [eq_zero_iff]
  refine forall₂_congr ?_
  intro j hj
  rw [lane_load m a hj]

/-- Storing the word that is there changes nothing. -/
@[simp] theorem store_load : store m a (load m a n) = m := by
  funext x
  unfold store
  split_ifs with h
  · rw [lane_load m a (by omega)]
    congr 1; omega
  · rfl

@[simp] theorem fill_apply (n : ℕ) (f : ℕ → BitVec 8) {j : ℕ} (hj : j < n) :
    fill m a n f (a + j) = f j := by
  simp [fill, hj]

theorem fill_of_not_mem (n : ℕ) (f : ℕ → BitVec 8) {x : ℕ} (hx : x < a ∨ a + n ≤ x) :
    fill m a n f x = m x := by
  unfold fill
  rw [if_neg (by omega)]

/-- Overwriting depends on the bytes in range only. -/
theorem fill_congr {f g : ℕ → BitVec 8} (h : ∀ j < n, f j = g j) :
    fill m a n f = fill m a n g := by
  funext x
  unfold fill
  split_ifs with hx
  · exact h _ (by omega)
  · rfl

/-- Two adjacent ranges are overwritten one after the other or at once. -/
theorem fill_append (k n : ℕ) (f : ℕ → BitVec 8) :
    fill (fill m a k f) (a + k) n (fun j => f (k + j)) = fill m a (k + n) f := by
  funext x
  unfold fill
  by_cases h : a + k ≤ x ∧ x < a + k + n
  · have hj : k + (x - (a + k)) = x - a := by omega
    simp only [if_pos h, hj]
    rw [if_pos (by omega)]
  · rw [if_neg h]
    by_cases h' : a ≤ x ∧ x < a + k
    · rw [if_pos h', if_pos (by omega)]
    · rw [if_neg h', if_neg (by omega)]

end Memory
