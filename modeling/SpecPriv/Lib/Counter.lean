/-
  Counters that wrap around.

  A signed counter of `w` bits that starts at zero is increased again and
  again.  The amounts are listed latest first, so the states of the counter
  are those of the suffixes of the list.

  `exact_iff`: the counter never differs from the sum of the amounts so far
  iff the sum of all of them is in the range of the counter.
-/
import Mathlib.Algebra.BigOperators.Intervals
import Mathlib.Algebra.Order.BigOperators.Group.List

namespace Counter

variable {w : ℕ}

/-- The counter after the increases `cs`. -/
def wrapped (w : ℕ) (cs : List ℕ) : BitVec w := cs.foldr (fun c x => x + BitVec.ofNat w c) 0#w

/-- At every point the counter is the sum of the increases so far. -/
def Exact (w : ℕ) (cs : List ℕ) : Prop := ∀ s, s <:+ cs → (wrapped w s).toInt = (s.sum : ℤ)

theorem wrapped_eq (cs : List ℕ) : wrapped w cs = BitVec.ofNat w cs.sum := by
  induction cs with
  | nil => rfl
  | cons c cs ih =>
    rw [List.sum_cons, Nat.add_comm, BitVec.ofNat_add, ← ih]
    rfl

theorem sum_le_of_suffix {s cs : List ℕ} (h : s <:+ cs) : s.sum ≤ cs.sum := by
  obtain ⟨t, rfl⟩ := h
  rw [List.sum_append]
  exact Nat.le_add_left _ _

theorem exact_iff (hw : 0 < w) (cs : List ℕ) : Exact w cs ↔ cs.sum < 2 ^ (w - 1) := by
  have hpow : 2 ^ w = 2 * 2 ^ (w - 1) := by rw [← pow_succ', Nat.sub_add_cancel hw]
  constructor
  · intro h
    have hcs := h cs List.suffix_rfl
    have hlt : (wrapped w cs).toInt < 2 ^ (w - 1) := BitVec.toInt_lt
    rw [hcs] at hlt
    exact_mod_cast hlt
  · intro h s hs
    have hle := sum_le_of_suffix hs
    rw [wrapped_eq, BitVec.toInt_eq_toNat_of_lt, BitVec.toNat_ofNat, Nat.mod_eq_of_lt (by omega)]
    rw [BitVec.toNat_ofNat, Nat.mod_eq_of_lt (by omega)]
    omega

end Counter
