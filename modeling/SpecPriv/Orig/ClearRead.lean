/-
  `clear_read`: the scan of a shadow page before it is forwarded.

  The scan walks over the page by pairs of 64-bit words, counts the words
  that are not zero, finds out whether the page was only read (every byte of
  metadata is `0x00` or `0x04`), and was meant to set bit 0 of the bytes that
  were read and not written.

  `clearRead_eq`: it leaves the page as it was (the mask is intersected with
  the word before it is added to it), and returns `0` for a page that was only
  read, otherwise the number of its non-zero words.
-/
import SpecPriv.Lib.Loop
import SpecPriv.Orig.Page

namespace SpecPriv

open Loop Words

/-- The state of the scan. -/
structure ReadScan where
  mem : Memory
  nonzero : ℕ
  readonly : Bool

/-- One round, for the words at offsets `i` and `i + 8`. -/
def clearReadRound (shadow : ℕ) (i : ℕ) (st : ReadScan) : ReadScan :=
  let s0 := load64 st.mem (shadow + i)
  let s1 := load64 st.mem (shadow + i + 8)
  if s0 = 0#64 ∧ s1 = 0#64 then st else
  let nonzero := if s0 ≠ 0#64 then st.nonzero + 1 else st.nonzero
  let nonzero := if s1 ≠ 0#64 then nonzero + 1 else nonzero
  let readonly := if s0 &&& 0xfbfbfbfbfbfbfbfb#64 ≠ 0#64 ∨ s1 &&& 0xfbfbfbfbfbfbfbfb#64 ≠ 0#64
    then false else st.readonly
  let mask0 := (s0 >>> 2) &&& ~~~(s0 >>> 1) &&& 0x0101010101010101#64
  let mask1 := (s1 >>> 2) &&& ~~~(s1 >>> 1) &&& 0x0101010101010101#64
  let mem := store64 st.mem (shadow + i) (load64 st.mem (shadow + i) ||| (s0 &&& mask0))
  let mem := store64 mem (shadow + i + 8) (load64 mem (shadow + i + 8) ||| (s1 &&& mask1))
  ⟨mem, nonzero, readonly⟩

/-- `clear_read`, with the memory it leaves. -/
def clearRead (shadow : ℕ) (mem : Memory) : Memory × ℕ :=
  let st := forLoop 0 pageSize 16 (clearReadRound shadow) ⟨mem, 0, true⟩
  (st.mem, if st.readonly then 0 else st.nonzero)

/-! ## What it computes -/

/-- The number of non-zero words among the first `k` words from `a` on. -/
def nonzeroBelow (m : Memory) (a : ℕ) (k : ℕ) : ℕ :=
  (List.range k).countP fun i => load64 m (a + 8 * i) ≠ 0#64

/-- The number of non-zero words of the page at `a`. -/
def nonzeroWords (m : Memory) (a : ℕ) : ℕ := nonzeroBelow m a (pageSize / 8)

/-- The first `k` bytes from `a` on carry the read bit or nothing. -/
def ReadonlyBelow (m : Memory) (a : ℕ) (k : ℕ) : Prop := ∀ j < k, m (a + j) &&& 0xfb#8 = 0#8

/-- The page at `a` was read at most. -/
def ReadonlyPage (m : Memory) (a : ℕ) : Prop := ReadonlyBelow m a pageSize

instance (m : Memory) (a k : ℕ) : Decidable (ReadonlyBelow m a k) :=
  inferInstanceAs (Decidable (∀ j < k, _))

instance (m : Memory) (a : ℕ) : Decidable (ReadonlyPage m a) :=
  inferInstanceAs (Decidable (ReadonlyBelow m a pageSize))

variable {m : Memory} {a : ℕ}

theorem nonzeroBelow_succ (k : ℕ) : nonzeroBelow m a (k + 1) =
    nonzeroBelow m a k + if load64 m (a + 8 * k) ≠ 0#64 then 1 else 0 := by
  simp [nonzeroBelow, List.range_succ, List.countP_append, List.countP_cons]

/-- The mask test of a word tests its eight bytes. -/
theorem load64_and_eq_zero_iff (b : ℕ) :
    load64 m b &&& 0xfbfbfbfbfbfbfbfb#64 = 0#64 ↔ ∀ j < 8, m (b + j) &&& 0xfb#8 = 0#8 := by
  have hmask : 0xfbfbfbfbfbfbfbfb#64 = rep 8 0xfb#8 := by decide
  exact load64_and_rep_eq_zero_iff hmask b

theorem readonlyBelow_add_eight (k : ℕ) : ReadonlyBelow m a (k + 8) ↔
    ReadonlyBelow m a k ∧ load64 m (a + k) &&& 0xfbfbfbfbfbfbfbfb#64 = 0#64 := by
  rw [load64_and_eq_zero_iff]
  constructor
  · intro h
    constructor
    · intro j hj
      exact h j (by omega)
    · intro j hj
      rw [Nat.add_assoc]
      exact h (k + j) (by omega)
  · rintro ⟨h, h'⟩ j hj
    by_cases hjk : j < k
    · exact h j hjk
    · have := h' (j - k) (by omega)
      rwa [show a + k + (j - k) = a + j by omega] at this

/-- Adding to a word a part of itself changes nothing. -/
theorem or_and_self (x y : BitVec 64) : x ||| (x &&& y) = x := by
  refine BitVec.eq_of_getLsbD_eq ?_
  intro i hi
  rw [BitVec.getLsbD_or, BitVec.getLsbD_and]
  cases x.getLsbD i <;> simp

/-- What one round does: the memory stays, the two words are counted and
    tested. -/
theorem clearReadRound_eq (i : ℕ) (st : ReadScan) :
    clearReadRound a i st = ⟨st.mem,
      st.nonzero + (if load64 st.mem (a + i) ≠ 0#64 then 1 else 0) +
        (if load64 st.mem (a + i + 8) ≠ 0#64 then 1 else 0),
      st.readonly && decide (load64 st.mem (a + i) &&& 0xfbfbfbfbfbfbfbfb#64 = 0#64 ∧
        load64 st.mem (a + i + 8) &&& 0xfbfbfbfbfbfbfbfb#64 = 0#64)⟩ := by
  simp only [clearReadRound, or_and_self, store64_load64]
  generalize load64 st.mem (a + i) = s0
  generalize load64 st.mem (a + i + 8) = s1
  by_cases hz : s0 = 0#64 ∧ s1 = 0#64
  · simp [hz.1, hz.2]
  · rw [if_neg hz]
    by_cases hr : s0 &&& 0xfbfbfbfbfbfbfbfb#64 = 0#64 ∧ s1 &&& 0xfbfbfbfbfbfbfbfb#64 = 0#64
    · simp only [hr.1, hr.2, ne_eq, not_true_eq_false, or_self, if_false, and_self, decide_true,
        Bool.and_true]
      split_ifs <;> rfl
    · simp only [if_pos (not_and_or.1 hr), decide_eq_false hr, Bool.and_false]
      split_ifs <;> rfl

theorem clearRead_rounds (n : ℕ) :
    forN n (fun k => clearReadRound a (0 + 16 * k)) ⟨m, 0, true⟩ =
      ⟨m, nonzeroBelow m a (2 * n), decide (ReadonlyBelow m a (16 * n))⟩ := by
  refine forN_induct (P := fun k (st : ReadScan) => st =
    ⟨m, nonzeroBelow m a (2 * k), decide (ReadonlyBelow m a (16 * k))⟩) ?_ ?_
  · simp [nonzeroBelow, ReadonlyBelow]
  · rintro k - _ rfl
    have h0 : a + (0 + 16 * k) = a + 8 * (2 * k) := by omega
    have h1 : a + (0 + 16 * k) + 8 = a + 8 * (2 * k + 1) := by omega
    rw [clearReadRound_eq]
    simp only [ReadScan.mk.injEq, true_and]
    constructor
    · rw [h1, h0, show 2 * (k + 1) = 2 * k + 1 + 1 by omega, nonzeroBelow_succ, nonzeroBelow_succ]
    · rw [Bool.eq_iff_iff, Bool.and_eq_true, decide_eq_true_iff, decide_eq_true_iff,
        decide_eq_true_iff, show 16 * (k + 1) = 16 * k + 8 + 8 by omega, readonlyBelow_add_eight,
        readonlyBelow_add_eight, and_assoc, Nat.zero_add, Nat.add_assoc a]

theorem clearRead_eq : clearRead a m =
    (m, if ReadonlyPage m a then 0 else nonzeroWords m a) := by
  have hrounds : rounds 0 pageSize 16 = 256 := rfl
  simp only [clearRead, forLoop, hrounds, clearRead_rounds, decide_eq_true_eq]
  rfl

/-! ## Pages that were read at most -/

theorem nonzeroWords_eq_zero_iff : nonzeroWords m a = 0 ↔ ∀ j < pageSize, m (a + j) = 0#8 := by
  have hsize : pageSize = 8 * (pageSize / 8) := rfl
  simp only [nonzeroWords, nonzeroBelow, List.countP_eq_zero, List.mem_range, decide_eq_true_eq,
    not_not]
  constructor
  · intro h j hj
    have := load64_eq_zero_iff.1 (h (j / 8) (by omega)) (j % 8) (Nat.mod_lt _ (by omega))
    rwa [show a + 8 * (j / 8) + j % 8 = a + j by omega] at this
  · intro h k hk
    rw [load64_eq_zero_iff]
    intro j hj
    rw [Nat.add_assoc]
    exact h _ (by omega)

/-- `clear_read` returns `0` iff the page was read at most. -/
theorem clearRead_eq_zero_iff : (clearRead a m).2 = 0 ↔ ReadonlyPage m a := by
  rw [clearRead_eq]
  by_cases hr : ReadonlyPage m a
  · simp [hr]
  · have hne : nonzeroWords m a ≠ 0 := by
      intro h0
      refine hr ?_
      intro j hj
      rw [nonzeroWords_eq_zero_iff.1 h0 j hj]
      rfl
    simp [hr, hne]

end SpecPriv
