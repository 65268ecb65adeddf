/-
  The scans of a shadow page, and how they agree.

  `clear_read` classifies a page before it is forwarded; `is_ro_page`, of the
  profiling build, asks whether the page was only read; `check_nrbw` asks
  whether no byte of it was read before it was written (bit 0), and has two
  builds: one that tests the words, and one that skips pairs of zero words and
  tests the others as one vector of 128 bits.

  * `clearRead_classifies`: `clear_read` returns `0` exactly for the pages
    `is_ro_page` holds of, those whose bytes are `0x00` or `0x04`, and
    otherwise the number of non-zero words, which is the number of packet
    pairs that `forward_pair` sends for the page when it sends packets;
  * `checkNrbw_agree`: the two builds of `check_nrbw` return the same, `true`
    iff no byte of the page has bit 0 set.
-/
import SpecPriv.Orig.Forward

namespace SpecPriv

open Loop Words

/-! ## `is_ro_page` -/

/-- One round, for the words at offsets `i` and `i + 8`. -/
def isRoPageRound (shadow : ℕ) (m : Memory) (i : ℕ) : Option Bool :=
  let s0 := load64 m (shadow + i)
  let s1 := load64 m (shadow + i + 8)
  if s0 = 0#64 ∧ s1 = 0#64 then none
  else if s0 &&& 0xfbfbfbfbfbfbfbfb#64 ≠ 0#64 ∨ s1 &&& 0xfbfbfbfbfbfbfbfb#64 ≠ 0#64 then some false
  else none

def isRoPage (shadow : ℕ) (m : Memory) : Bool :=
  (searchLoop 0 pageSize 16 (isRoPageRound shadow m)).getD true

/-! ## `check_nrbw` -/

/-- One round of the build with `DEBUG_ON`. -/
def checkNrbwDebugRound (shadow : ℕ) (m : Memory) (i : ℕ) : Option Bool :=
  let s0 := load64 m (shadow + i)
  let s1 := load64 m (shadow + i + 8)
  if s0 &&& 0x0101010101010101#64 ≠ 0#64 then some false
  else if s1 &&& 0x0101010101010101#64 ≠ 0#64 then some false
  else none

def checkNrbwDebug (shadow : ℕ) (m : Memory) : Bool :=
  (searchLoop 0 pageSize 16 (checkNrbwDebugRound shadow m)).getD true

/-- `_mm_set_epi32`: four 32-bit lanes, the last argument lowest. -/
def mmSetEpi32 (e3 e2 e1 e0 : BitVec 32) : BitVec 128 := e3 ++ e2 ++ e1 ++ e0

/-- `_mm_set1_epi8`: the same byte in all sixteen lanes. -/
def mmSet1Epi8 (c : BitVec 8) : BitVec 128 := rep 16 c

/-- `_mm_test_all_zeros`: no bit of the mask is set in the vector. -/
def mmTestAllZeros (val mask : BitVec 128) : Bool := val &&& mask = 0#128

/-- One round of the vectorised build. -/
def checkNrbwRound (shadow : ℕ) (m : Memory) (i : ℕ) : Option Bool :=
  let s0 := load64 m (shadow + i)
  let s1 := load64 m (shadow + i + 8)
  if s0 = 0#64 ∧ s1 = 0#64 then none else
  let val := mmSetEpi32 ((s1 >>> 32).setWidth 32) (s1.setWidth 32) ((s0 >>> 32).setWidth 32)
    (s0.setWidth 32)
  let mask := mmSet1Epi8 1#8
  if !mmTestAllZeros val mask then some false else none

def checkNrbw (shadow : ℕ) (m : Memory) : Bool :=
  (searchLoop 0 pageSize 16 (checkNrbwRound shadow m)).getD true

/-! ## Scans by pairs of words -/

variable {m : Memory} {a b : ℕ}

/-- A property of all bytes of a page, by pairs of words. -/
theorem forall_byte_iff (P : ℕ → Prop) : (∀ j < pageSize, P j) ↔
    ∀ k < rounds 0 pageSize 16, (∀ j < 8, P (0 + 16 * k + j)) ∧
      ∀ j < 8, P (0 + 16 * k + 8 + j) := by
  have hrounds : rounds 0 pageSize 16 = 256 := rfl
  have hsize : pageSize = 4096 := rfl
  rw [hrounds, hsize]
  constructor
  · intro h k hk
    constructor
    · intro j hj
      exact h _ (by omega)
    · intro j hj
      exact h _ (by omega)
  · intro h j hj
    obtain ⟨hlow, hhigh⟩ := h (j / 16) (by omega)
    by_cases hj8 : j % 16 < 8
    · have := hlow (j % 16) hj8
      rwa [show 0 + 16 * (j / 16) + j % 16 = j by omega] at this
    · have := hhigh (j % 16 - 8) (by omega)
      rwa [show 0 + 16 * (j / 16) + 8 + (j % 16 - 8) = j by omega] at this

/-- A scan that stops at the first pair of words in which a mask finds a bit:
    it succeeds iff the mask finds no bit in any byte of the page. -/
theorem scan_iff {round : ℕ → Option Bool} {c : BitVec 8} {mask : BitVec 64}
    (hmask : mask = rep 8 c)
    (hround : ∀ i, round i = if load64 m (a + i) &&& mask = 0#64 ∧
      load64 m (a + i + 8) &&& mask = 0#64 then none else some false) :
    (searchLoop 0 pageSize 16 round).getD true = true ↔
      ∀ j < pageSize, m (a + j) &&& c = 0#8 := by
  have hstop : ∀ k, round (0 + 16 * k) ≠ some true := by
    intro k
    rw [hround]
    split_ifs <;> simp
  rw [searchLoop, searchN_check_iff hstop, forall_byte_iff]
  refine forall₂_congr ?_
  intro k hk
  have hlow := load64_and_rep_eq_zero_iff hmask (m := m) (a + (0 + 16 * k))
  have hhigh := load64_and_rep_eq_zero_iff hmask (m := m) (a + (0 + 16 * k) + 8)
  simp only [Nat.add_assoc a] at hlow hhigh
  rw [hround, ← hlow, ← hhigh, Nat.add_assoc]
  by_cases h : load64 m (a + (0 + 16 * k)) &&& mask = 0#64 ∧
      load64 m (a + (0 + 16 * k + 8)) &&& mask = 0#64
  · rw [if_pos h]
    exact iff_of_true rfl h
  · rw [if_neg h]
    exact iff_of_false (Option.some_ne_none false) h

/-! ## The three scans -/

theorem isRoPageRound_eq (i : ℕ) : isRoPageRound a m i =
    if load64 m (a + i) &&& 0xfbfbfbfbfbfbfbfb#64 = 0#64 ∧
      load64 m (a + i + 8) &&& 0xfbfbfbfbfbfbfbfb#64 = 0#64 then none else some false := by
  unfold isRoPageRound
  generalize load64 m (a + i) = s0
  generalize load64 m (a + i + 8) = s1
  by_cases hz : s0 = 0#64 ∧ s1 = 0#64
  · simp [hz.1, hz.2]
  · simp only [if_neg hz, ← not_and_or, ite_not]

theorem isRoPage_iff : isRoPage a m = true ↔ ReadonlyPage m a := by
  have hmask : 0xfbfbfbfbfbfbfbfb#64 = rep 8 0xfb#8 := by decide
  exact scan_iff hmask isRoPageRound_eq

theorem checkNrbwDebugRound_eq (i : ℕ) : checkNrbwDebugRound a m i =
    if load64 m (a + i) &&& 0x0101010101010101#64 = 0#64 ∧
      load64 m (a + i + 8) &&& 0x0101010101010101#64 = 0#64 then none else some false := by
  unfold checkNrbwDebugRound
  by_cases h0 : load64 m (a + i) &&& 0x0101010101010101#64 = 0#64
  · simp only [h0, ne_eq, not_true_eq_false, if_false, true_and, ite_not]
  · simp only [h0, ne_eq, not_false_eq_true, if_true, false_and, if_false]

/-- The two halves of a word put together are the word. -/
theorem halves_append (s : BitVec 64) :
    ((s >>> 32).setWidth 32 ++ s.setWidth 32 : BitVec (32 + 32)) = s := by
  refine BitVec.eq_of_getLsbD_eq ?_
  intro i hi
  rw [BitVec.getLsbD_append, BitVec.getLsbD_setWidth, BitVec.getLsbD_setWidth,
    BitVec.getLsbD_ushiftRight]
  by_cases hlow : i < 32
  · simp [hlow]
  · have hhigh : i - 32 < 32 := by omega
    simp [hlow, hhigh, Nat.add_sub_cancel' (Nat.le_of_not_lt hlow)]

/-- The four lanes put together are the two words. -/
theorem mmSetEpi32_words (s0 s1 : BitVec 64) :
    mmSetEpi32 ((s1 >>> 32).setWidth 32) (s1.setWidth 32) ((s0 >>> 32).setWidth 32)
      (s0.setWidth 32) = s1 ++ s0 := by
  unfold mmSetEpi32
  rw [BitVec.append_assoc, halves_append, halves_append]
  rfl

/-- Two words are zero iff the vector of them is. -/
theorem append_eq_zero_iff {w : ℕ} {x y : BitVec w} : x ++ y = 0#(w + w) ↔ y = 0#w ∧ x = 0#w := by
  constructor
  · intro h
    constructor
    · have := congrArg (BitVec.extractLsb' 0 w) h
      rwa [BitVec.extractLsb'_append_eq_right, BitVec.extractLsb'_zero] at this
    · have := congrArg (BitVec.extractLsb' w w) h
      rwa [BitVec.extractLsb'_append_eq_left, BitVec.extractLsb'_zero] at this
  · rintro ⟨rfl, rfl⟩
    exact BitVec.zero_append_zero

/-- The vector test of two words tests both. -/
theorem mmTestAllZeros_words (s0 s1 : BitVec 64) :
    mmTestAllZeros (s1 ++ s0) (mmSet1Epi8 1#8) = true ↔
      s0 &&& 0x0101010101010101#64 = 0#64 ∧ s1 &&& 0x0101010101010101#64 = 0#64 := by
  have hmask : mmSet1Epi8 1#8 = (0x0101010101010101#64 ++ 0x0101010101010101#64 : BitVec 128) := by
    decide
  rw [mmTestAllZeros, decide_eq_true_iff, hmask, BitVec.and_append]
  exact append_eq_zero_iff

theorem checkNrbwRound_eq (i : ℕ) : checkNrbwRound a m i =
    if load64 m (a + i) &&& 0x0101010101010101#64 = 0#64 ∧
      load64 m (a + i + 8) &&& 0x0101010101010101#64 = 0#64 then none else some false := by
  unfold checkNrbwRound
  generalize load64 m (a + i) = s0
  generalize load64 m (a + i + 8) = s1
  by_cases hz : s0 = 0#64 ∧ s1 = 0#64
  · simp [hz.1, hz.2]
  · have htest := mmTestAllZeros_words s0 s1
    simp only [if_neg hz, mmSetEpi32_words]
    by_cases h : mmTestAllZeros (s1 ++ s0) (mmSet1Epi8 1#8) = true
    · rw [if_pos (htest.1 h), h]
      rfl
    · rw [if_neg (mt htest.2 h), Bool.eq_false_of_not_eq_true h]
      rfl

/-- Both builds test every byte of the page for bit 0. -/
theorem checkNrbw_iff : (checkNrbw a m = true ↔ ∀ j < pageSize, m (a + j) &&& 1#8 = 0#8) ∧
    (checkNrbwDebug a m = true ↔ ∀ j < pageSize, m (a + j) &&& 1#8 = 0#8) := by
  have hmask : 0x0101010101010101#64 = rep 8 1#8 := by decide
  exact ⟨scan_iff hmask checkNrbwRound_eq, scan_iff hmask checkNrbwDebugRound_eq⟩

/-! ## The results -/

theorem and_one_eq_zero_iff : ∀ b : Byte, b &&& 1#8 = 0#8 ↔ b.getLsbD 0 = false := by decide

/-- **The two builds of `check_nrbw` agree**: both say whether no byte of the
    page has bit 0 set. -/
theorem checkNrbw_agree (m : Memory) (shadow : ℕ) :
    checkNrbw shadow m = checkNrbwDebug shadow m ∧
    (checkNrbw shadow m = true ↔ ∀ j < pageSize, (m (shadow + j)).getLsbD 0 = false) := by
  obtain ⟨hsse, hdebug⟩ := checkNrbw_iff (m := m) (a := shadow)
  refine ⟨?_, ?_⟩
  · rw [Bool.eq_iff_iff, hsse, hdebug]
  · rw [hsse]
    refine forall₂_congr ?_
    intro j _
    exact and_one_eq_zero_iff _

theorem and_fb_eq_zero_iff : ∀ b : Byte, b &&& 0xfb#8 = 0#8 ↔ b = 0x00#8 ∨ b = 0x04#8 := by decide

theorem readonlyPage_iff :
    ReadonlyPage m a ↔ ∀ j < pageSize, m (a + j) = 0x00#8 ∨ m (a + j) = 0x04#8 := by
  refine forall₂_congr ?_
  intro j _
  exact and_fb_eq_zero_iff _

theorem markedWords_length (n : ℕ) : (markedWords m b a n).length = nonzeroBelow m a n := by
  rw [markedWords, List.length_map, nonzeroBelow, List.countP_eq_length_filter]

/-- A page with few non-zero words is sent word by word. -/
theorem forwardPair_packets {nonzero : ℕ} (hpos : nonzero ≠ 0) (hle : nonzero ≤ 8) (wid : Wid)
    (iter mem shadow : ℕ) (check : Check) (s : Sender) :
    (forwardPair nonzero wid iter mem shadow check s).out.log = s.out.log ++
      (Parcel.words (markedWords s.mem mem shadow (pageSize / 8))).calls wid iter check := by
  rw [forwardPair, if_neg (Nat.not_lt.2 hle), if_pos hpos, forwardWords_eq, sendWords_eq]

/-- **`clear_read` classifies the page exactly**, and `is_ro_page` agrees: `0`
    for the pages whose bytes are `0x00` or `0x04`, otherwise the number of
    non-zero words.  When that number is at most eight, `forward_pair` sends
    one pair of packets for each of these words. -/
theorem clearRead_classifies (m : Memory) (shadow : ℕ) :
    ((clearRead shadow m).2 = 0 ↔
      ∀ j < pageSize, m (shadow + j) = 0x00#8 ∨ m (shadow + j) = 0x04#8) ∧
    ((clearRead shadow m).2 = 0 ↔ isRoPage shadow m = true) ∧
    ((clearRead shadow m).2 ≠ 0 →
      (clearRead shadow m).2 = nonzeroWords m shadow ∧
      ((clearRead shadow m).2 ≤ 8 → ∀ wid iter mem check out,
        (markedWords m mem shadow (pageSize / 8)).length = (clearRead shadow m).2 ∧
        (forwardPair (clearRead shadow m).2 wid iter mem shadow check
          ⟨(clearRead shadow m).1, out⟩).out.log = out.log ++
            (Parcel.words (markedWords m mem shadow (pageSize / 8))).calls wid iter check)) := by
  have hzero : (clearRead shadow m).2 = 0 ↔ ReadonlyPage m shadow := clearRead_eq_zero_iff
  have hmem : (clearRead shadow m).1 = m := by rw [clearRead_eq]
  refine ⟨hzero.trans readonlyPage_iff, hzero.trans isRoPage_iff.symm, ?_⟩
  intro hne
  have hcount : (clearRead shadow m).2 = nonzeroWords m shadow := by
    rw [clearRead_eq, if_neg (mt hzero.2 hne)]
  refine ⟨hcount, ?_⟩
  intro hle wid iter mem check out
  refine ⟨?_, ?_⟩
  · rw [markedWords_length, hcount, nonzeroWords]
  · rw [forwardPair_packets hne hle, hmem]

end SpecPriv
