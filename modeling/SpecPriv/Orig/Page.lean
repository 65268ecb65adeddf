/-
  Pages, and the shadow pages that hold their metadata.

  Every byte of a program page has a byte of metadata in the page's shadow
  page.  `AddressMap` is `GET_ORIGINAL_OF` with what it promises: it maps
  shadow pages to program pages, different ones to different ones.

  The bits of a byte of metadata: bit 0 asks for validation, bit 1 is set by
  a write, bit 2 by a read, bit 7 of the first byte of a page says that the
  page was touched.
-/
import SpecPriv.Lib.Word

namespace SpecPriv

abbrev Byte := BitVec 8

def pageSize : ℕ := 4096

/-- A page, given by the address of its first byte. -/
structure Page where
  addr : ℕ
  aligned : pageSize ∣ addr
deriving DecidableEq

theorem Page.ext_addr {p q : Page} (h : p.addr = q.addr) : p = q := by
  cases p
  cases q
  simp_all

/-- The bytes of a page. -/
abbrev PageBytes := Fin pageSize → Byte

/-- A copy of the page at `a`. -/
def snapshot (m : Memory) (a : ℕ) : PageBytes := fun j => m (a + j)

def setZeroPage (m : Memory) (a : ℕ) : Memory := m.fill a pageSize fun _ => 0#8

def isZeroPage (m : Memory) (a : ℕ) : Bool := decide (∀ j < pageSize, m (a + j) = 0#8)

/-- The 64-bit word at `a`. -/
def load64 (m : Memory) (a : ℕ) : BitVec 64 := m.load a 8

/-- Store a 64-bit word at `a`. -/
def store64 (m : Memory) (a : ℕ) (w : BitVec 64) : Memory := m.store (n := 8) a w

/-- `GET_ORIGINAL_OF` on the shadow pages. -/
structure AddressMap where
  IsShadow : Page → Prop
  getOriginalOf : {p : Page // IsShadow p} → Page
  /-- program pages are not shadow pages -/
  original_not_shadow : ∀ s, ¬ IsShadow (getOriginalOf s)
  injective : Function.Injective getOriginalOf
  /-- no program page is at the null address -/
  original_ne_null : ∀ s, (getOriginalOf s).addr ≠ 0

/-- A shadow page. -/
abbrev AddressMap.Shadow (am : AddressMap) := {p : Page // am.IsShadow p}

/-- The shadow of a page is at a fixed distance above it. -/
def AddressMap.shifted : AddressMap where
  IsShadow p := 2 ^ 46 + pageSize ≤ p.addr ∧ p.addr < 2 ^ 47
  getOriginalOf s := ⟨s.1.addr - 2 ^ 46, Nat.dvd_sub s.1.aligned (by decide)⟩
  original_not_shadow s h := by
    have := s.2
    simp only at h
    omega
  injective s t h := by
    have haddr := congrArg Page.addr h
    dsimp only at haddr
    have hs : 2 ^ 46 ≤ s.1.addr := (Nat.le_add_right _ _).trans s.2.1
    have ht : 2 ^ 46 ≤ t.1.addr := (Nat.le_add_right _ _).trans t.2.1
    have heq : s.1.addr = t.1.addr := by omega
    exact Subtype.ext (Page.ext_addr heq)
  original_ne_null s := by
    have := s.2.1
    have hpos : 0 < pageSize := by decide
    show s.1.addr - 2 ^ 46 ≠ 0
    omega

/-- The shadow of the page at `0x1000`. -/
def onePage : AddressMap.shifted.Shadow := ⟨⟨2 ^ 46 + pageSize, by decide⟩, le_rfl, by decide⟩

/-! ## Pages in memory -/

variable {m : Memory} {p q : Page}

/-- Different pages do not overlap. -/
theorem Page.disjoint (h : p ≠ q) : p.addr + pageSize ≤ q.addr ∨ q.addr + pageSize ≤ p.addr := by
  obtain ⟨i, hi⟩ := p.aligned
  obtain ⟨j, hj⟩ := q.aligned
  have hne : i ≠ j := by
    rintro rfl
    exact h (Page.ext_addr (hi.trans hj.symm))
  rcases Nat.lt_or_gt_of_ne hne with hlt | hlt
  · left
    have := Nat.mul_le_mul_left pageSize hlt
    rw [Nat.mul_succ] at this
    omega
  · right
    have := Nat.mul_le_mul_left pageSize hlt
    rw [Nat.mul_succ] at this
    omega

theorem pageSize_pos : 0 < pageSize := by decide

theorem isZeroPage_iff {a : ℕ} : isZeroPage m a ↔ ∀ j < pageSize, m (a + j) = 0#8 := by
  simp [isZeroPage]

theorem setZeroPage_apply (a : ℕ) {j : ℕ} (hj : j < pageSize) :
    setZeroPage m a (a + j) = 0#8 :=
  Memory.fill_apply m a pageSize _ hj

theorem setZeroPage_of_not_mem {a x : ℕ} (h : x < a ∨ a + pageSize ≤ x) :
    setZeroPage m a x = m x :=
  Memory.fill_of_not_mem m a pageSize _ h

/-- Zeroing a page leaves every other page as it was. -/
theorem setZeroPage_other (h : p ≠ q) {j : ℕ} (hj : j < pageSize) :
    setZeroPage m q.addr (p.addr + j) = m (p.addr + j) := by
  refine setZeroPage_of_not_mem ?_
  rcases Page.disjoint h with hd | hd
  · left
    omega
  · right
    omega

theorem load64_eq_zero_iff {a : ℕ} : load64 m a = 0#64 ↔ ∀ j < 8, m (a + j) = 0#8 :=
  Memory.load_eq_zero_iff m a

theorem lane_load64 (a : ℕ) {j : ℕ} (hj : j < 8) : Words.lane 8 (load64 m a) j = m (a + j) :=
  Memory.lane_load m a hj

/-- A mask that repeats a pattern in the bytes of a word tests the eight bytes
    of the word. -/
theorem load64_and_rep_eq_zero_iff {c : Byte} {mask : BitVec 64} (hmask : mask = Words.rep 8 c)
    (a : ℕ) : load64 m a &&& mask = 0#64 ↔ ∀ j < 8, m (a + j) &&& c = 0#8 := by
  subst hmask
  refine Words.and_rep_eq_zero_iff.trans ?_
  refine forall₂_congr ?_
  intro j hj
  rw [← lane_load64 (m := m) a hj]
  rfl

@[simp] theorem store64_load64 (a : ℕ) : store64 m a (load64 m a) = m := Memory.store_load m a

end SpecPriv
