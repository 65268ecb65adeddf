/-
  A heap of mapped regions that hold pointers.

  A pointer is the number of a region; `0` is null, and region `1` holds the
  global variables.  A new region is filled with null, and its pointer is
  stored in one place, so that every pointer is stored in one place at most.

  * `mapAt` maps a region and stores its pointer;
  * `follow_inj`: the paths from the global variables that lead to a region;
  * `newRow`, `newGrid` build the tables: a row of regions, and a region of
    rows of regions;
  * `newRow_spec`, `newGrid_spec`: which of their pointers are null.
-/
import Mathlib.Logic.Function.Basic
import Mathlib.Tactic.SplitIfs
import SpecPriv.Lib.Loop

namespace Regions

open Loop

/-- The next region to be mapped, and the pointers in the regions. -/
structure Heap where
  next : ℕ
  word : ℕ → ℕ → ℕ
  /-- null and the global variables are there from the start -/
  next_gt : 1 < next
  lt_next : ∀ a i, word a i < next
  ne_one : ∀ a i, word a i ≠ 1
  null : ∀ i, word 0 i = 0
  /-- every pointer is stored in one place -/
  unique : ∀ a i b j, word a i ≠ 0 → word a i = word b j → a = b ∧ i = j

/-- The heap as the program starts. -/
def Heap.init : Heap where
  next := 2
  word _ _ := 0
  next_gt := Nat.one_lt_two
  lt_next _ _ := Nat.two_pos
  ne_one _ _ := Nat.zero_ne_one
  null _ := rfl
  unique _ _ _ _ h := absurd rfl h

namespace Heap

/-- The words after a region is mapped and its pointer is stored, except in null. -/
def wordAt (h : Heap) (a i b j : ℕ) : ℕ :=
  if a ≠ 0 ∧ b = a ∧ j = i then h.next else if b = h.next then 0 else h.word b j

/-- Map a region, and store its pointer. -/
def mapAt (a i : ℕ) (h : Heap) : Heap where
  next := h.next + 1
  word := h.wordAt a i
  next_gt := h.next_gt.trans h.next.lt_succ_self
  lt_next b j := by
    have hlt := h.lt_next b j
    unfold wordAt
    split_ifs <;> omega
  ne_one b j := by
    have hgt := h.next_gt
    unfold wordAt
    split_ifs
    · exact hgt.ne'
    · exact Nat.zero_ne_one
    · exact h.ne_one b j
  null j := by
    have hgt := h.next_gt
    have h0 : ¬ (a ≠ 0 ∧ 0 = a ∧ j = i) := fun hc => hc.1 hc.2.1.symm
    rw [wordAt, if_neg h0, if_neg (by omega), h.null]
  unique b j b' j' := by
    have hlt := h.lt_next b j
    have hlt' := h.lt_next b' j'
    unfold wordAt
    split_ifs with h1 h2 h3 h4 h5 h6 h7
    · exact fun _ _ => ⟨h1.2.1.trans h2.2.1.symm, h1.2.2.trans h2.2.2.symm⟩
    · exact fun h0 heq => absurd heq h0
    · exact fun _ heq => absurd heq.symm hlt'.ne
    · exact fun h0 => absurd rfl h0
    · exact fun h0 => absurd rfl h0
    · exact fun h0 => absurd rfl h0
    · exact fun _ heq => absurd heq hlt.ne
    · exact fun h0 heq => absurd heq h0
    · exact h.unique b j b' j'

theorem mapAt_word {a : ℕ} (ha : a ≠ 0) (i : ℕ) (h : Heap) (b j : ℕ) :
    (h.mapAt a i).word b j =
      if b = a ∧ j = i then h.next else if b = h.next then 0 else h.word b j := by
  simp [mapAt, wordAt, ha]

theorem mapAt_self {a : ℕ} (ha : a ≠ 0) (i : ℕ) (h : Heap) : (h.mapAt a i).word a i = h.next := by
  rw [mapAt_word ha, if_pos ⟨rfl, rfl⟩]

/-- The new region holds null. -/
theorem mapAt_new {a i : ℕ} {h : Heap} (h0 : a ≠ 0) (ha : a < h.next) (j : ℕ) :
    (h.mapAt a i).word h.next j = 0 := by
  rw [mapAt_word h0, if_neg fun hc => ha.ne' hc.1, if_pos rfl]

/-- Follow a path of indices. -/
def follow (h : Heap) : List ℕ → ℕ
  | [] => 1
  | i :: path => h.word (h.follow path) i

/-- Two paths that do not end in null end in different regions.  The paths are
    given from their ends. -/
theorem follow_inj (h : Heap) : ∀ {path path' : List ℕ}, h.follow path ≠ 0 →
    h.follow path = h.follow path' → path = path'
  | [], [], _, _ => rfl
  | [], _ :: _, _, heq => absurd heq.symm (h.ne_one _ _)
  | _ :: _, [], _, heq => absurd heq (h.ne_one _ _)
  | i :: path, j :: path', h0, heq => by
    obtain ⟨hpath, rfl⟩ := h.unique _ _ _ _ h0 heq
    have hne : h.follow path ≠ 0 := by
      intro hnull
      rw [follow, hnull, h.null] at h0
      exact h0 rfl
    rw [h.follow_inj hne hpath]

/-! ## What changes -/

/-- Of the regions of `h`, only the words of `A` may differ in `h'`. -/
structure Frame (A : ℕ → ℕ → Prop) (h h' : Heap) : Prop where
  next_le : h.next ≤ h'.next
  same : ∀ b < h.next, ∀ j, ¬ A b j → h'.word b j = h.word b j

variable {A B : ℕ → ℕ → Prop} {h h' h'' : Heap} {a i : ℕ}

theorem Frame.refl (A : ℕ → ℕ → Prop) (h : Heap) : Frame A h h := ⟨le_rfl, fun _ _ _ _ => rfl⟩

theorem Frame.trans (hf : Frame A h h') (hf' : Frame B h' h'')
    (hB : ∀ b < h.next, ∀ j, B b j → A b j) : Frame A h h'' where
  next_le := hf.next_le.trans hf'.next_le
  same b hb j hA := by
    rw [hf'.same b (hb.trans_le hf.next_le) j fun hBj => hA (hB b hb j hBj), hf.same b hb j hA]

theorem mapAt_frame (h0 : a ≠ 0) (i : ℕ) (h : Heap) :
    Frame (fun b j => b = a ∧ j = i) h (h.mapAt a i) where
  next_le := Nat.le_succ _
  same b hb j hA := by rw [mapAt_word h0, if_neg hA, if_neg hb.ne]

/-! ## Rows and grids -/

/-- Map regions into the words from `start` to `stop` of the region at `loc`. -/
def fill (loc : Heap → ℕ) (start stop : ℕ) : Heap → Heap :=
  forLoop start stop 1 fun j h => h.mapAt (loc h) j

/-- A region in word `i` of the region at `loc`, and regions in its words from
    `start` to `stop`. -/
def newRow (loc : Heap → ℕ) (i start stop : ℕ) (h : Heap) : Heap :=
  (h.mapAt (loc h) i).fill (fun h => h.word (loc h) i) start stop

/-- A region of `n` rows. -/
def newGrid (a i n : ℕ) (start : ℕ → ℕ) (stop : ℕ) (h : Heap) : Heap :=
  forLoop 0 n 1 (fun x => newRow (fun h => h.word a i) x (start x) stop) (h.mapAt a i)

/-- `loc` is the region `a`, whatever is done to the words of `A`. -/
structure Stays (A : ℕ → ℕ → Prop) (h : Heap) (loc : Heap → ℕ) (a : ℕ) : Prop where
  ne_zero : a ≠ 0
  lt_next : a < h.next
  stays : ∀ h', Frame A h h' → loc h' = a

theorem Stays.eq {loc : Heap → ℕ} (hloc : Stays A h loc a) : loc h = a :=
  hloc.stays h (.refl A h)

theorem fill_spec {loc : Heap → ℕ} {p : ℕ} (start stop : ℕ)
    (hloc : Stays (fun b _ => b = p) h loc p) :
    Frame (fun b _ => b = p) h (h.fill loc start stop) ∧
      ∀ j, (h.fill loc start stop).word p j ≠ 0 ↔ h.word p j ≠ 0 ∨ start ≤ j ∧ j < stop := by
  have hround : ∀ n, Frame (fun b _ => b = p) h
        (forN n (fun k h => h.mapAt (loc h) (start + 1 * k)) h) ∧
      ∀ j, (forN n (fun k h => h.mapAt (loc h) (start + 1 * k)) h).word p j ≠ 0 ↔
        h.word p j ≠ 0 ∨ start ≤ j ∧ j < start + n := by
    intro n
    refine forN_induct (fun n (h' : Heap) => Frame (fun b _ => b = p) h h' ∧
      ∀ j, h'.word p j ≠ 0 ↔ h.word p j ≠ 0 ∨ start ≤ j ∧ j < start + n) ⟨.refl _ _, ?_⟩ ?_
    · intro j
      exact (or_iff_left (by omega)).symm
    · rintro n - h' ⟨hframe, hword⟩
      rw [hloc.stays h' hframe]
      refine ⟨hframe.trans (mapAt_frame hloc.ne_zero _ h') fun _ _ _ hA => hA.1, ?_⟩
      intro j
      have hgt := h'.next_gt
      have hne : p ≠ h'.next := (hloc.lt_next.trans_le hframe.next_le).ne
      rw [mapAt_word hloc.ne_zero, if_neg hne]
      by_cases hj : j = start + 1 * n
      · rw [if_pos ⟨rfl, hj⟩]
        omega
      · rw [if_neg fun hc => hj hc.2, hword j]
        omega
  unfold fill forLoop
  rw [rounds_one]
  obtain ⟨hframe, hword⟩ := hround (stop - start)
  refine ⟨hframe, ?_⟩
  intro j
  rw [hword j]
  omega

/-- The pointers of a row are null outside the range. -/
theorem newRow_spec {loc : Heap → ℕ} {a i : ℕ} (start stop : ℕ)
    (hloc : Stays (fun b j => b = a ∧ j = i) h loc a) :
    Frame (fun b j => b = a ∧ j = i) h (h.newRow loc i start stop) ∧
      (h.newRow loc i start stop).word a i = h.next ∧
      ∀ j, (h.newRow loc i start stop).word h.next j ≠ 0 ↔ start ≤ j ∧ j < stop := by
  have ha := hloc.lt_next
  have hgt := h.next_gt
  have hp : h.next < (h.mapAt a i).next := h.next.lt_succ_self
  have hold {h' : Heap} (hframe : Frame (fun b _ => b = h.next) (h.mapAt a i) h') :
      Frame (fun b j => b = a ∧ j = i) h h' :=
    (mapAt_frame hloc.ne_zero i h).trans hframe fun b hb _ hA => absurd hA hb.ne
  have hself {h' : Heap} (hframe : Frame (fun b _ => b = h.next) (h.mapAt a i) h') :
      h'.word a i = h.next := by
    rw [hframe.same a (ha.trans hp) i ha.ne, mapAt_self hloc.ne_zero]
  have hrow : Stays (fun b _ => b = h.next) (h.mapAt a i) (fun h => h.word (loc h) i) h.next := by
    refine ⟨by omega, hp, ?_⟩
    intro h' hframe
    show h'.word (loc h') i = h.next
    rw [hloc.stays h' (hold hframe), hself hframe]
  obtain ⟨hframe, hword⟩ := fill_spec start stop hrow
  unfold newRow
  rw [hloc.eq]
  refine ⟨hold hframe, hself hframe, ?_⟩
  intro j
  rw [hword j, mapAt_new hloc.ne_zero ha]
  simp

/-- The region `p` leads to `n` rows with these ranges. -/
structure Rows (h : Heap) (p n : ℕ) (start : ℕ → ℕ) (stop : ℕ) : Prop where
  gt : ∀ x < n, p < h.word p x
  null : ∀ x, n ≤ x → h.word p x = 0
  row : ∀ x < n, ∀ j, h.word (h.word p x) j ≠ 0 ↔ start x ≤ j ∧ j < stop

namespace Rows

variable {p n stop : ℕ} {start : ℕ → ℕ}

theorem ne_zero_iff (hrows : Rows h p n start stop) (x j : ℕ) :
    h.word (h.word p x) j ≠ 0 ↔ x < n ∧ start x ≤ j ∧ j < stop := by
  rcases Nat.lt_or_ge x n with hx | hx
  · rw [hrows.row x hx j]
    exact (and_iff_right hx).symm
  · rw [hrows.null x hx, h.null]
    simp [hx.not_gt]

/-- What is done to smaller regions does not matter. -/
theorem frame (hrows : Rows h p n start stop) (hframe : Frame A h h') (hp : p < h.next)
    (hA : ∀ b j, A b j → b < p) : Rows h' p n start stop := by
  have hsame (x : ℕ) : h'.word p x = h.word p x := hframe.same p hp x fun hc => (hA p x hc).false
  refine ⟨?_, ?_, ?_⟩
  · intro x hx
    rw [hsame]
    exact hrows.gt x hx
  · intro x hx
    rw [hsame]
    exact hrows.null x hx
  · intro x hx j
    have hgt := hrows.gt x hx
    rw [hsame, hframe.same _ (h.lt_next p x) j fun hc => hgt.not_gt (hA _ j hc), hrows.row x hx j]

/-- Another row. -/
theorem newRow {loc : Heap → ℕ} (hrows : Rows h p n start stop)
    (hloc : Stays (fun b j => b = p ∧ j = n) h loc p) :
    Rows (h.newRow loc n (start n) stop) p (n + 1) start stop := by
  obtain ⟨hframe, hself, hword⟩ := newRow_spec (start n) stop hloc
  have hsame {x : ℕ} (hx : x ≠ n) : (h.newRow loc n (start n) stop).word p x = h.word p x :=
    hframe.same p hloc.lt_next x fun hc => hx hc.2
  refine ⟨?_, ?_, ?_⟩
  · intro x hx
    rcases Nat.lt_succ_iff_lt_or_eq.1 hx with hlt | rfl
    · rw [hsame hlt.ne]
      exact hrows.gt x hlt
    · rw [hself]
      exact hloc.lt_next
  · intro x hx
    rw [hsame (by omega)]
    exact hrows.null x (by omega)
  · intro x hx j
    rcases Nat.lt_succ_iff_lt_or_eq.1 hx with hlt | rfl
    · have hgt := hrows.gt x hlt
      rw [hsame hlt.ne, hframe.same _ (h.lt_next p x) j fun hc => hgt.ne' hc.1, hrows.row x hlt j]
    · rw [hself]
      exact hword j

end Rows

/-- The pointers of a grid are null outside the ranges of its rows. -/
theorem newGrid_spec {a i : ℕ} (n : ℕ) (start : ℕ → ℕ) (stop : ℕ) (h0 : a ≠ 0) (ha : a < h.next) :
    Frame (fun b j => b = a ∧ j = i) h (h.newGrid a i n start stop) ∧
      (h.newGrid a i n start stop).word a i = h.next ∧
      Rows (h.newGrid a i n start stop) h.next n start stop := by
  have hgt := h.next_gt
  have hp : h.next < (h.mapAt a i).next := h.next.lt_succ_self
  have hself {h' : Heap} (hframe : Frame (fun b _ => b = h.next) (h.mapAt a i) h') :
      h'.word a i = h.next := by
    rw [hframe.same a (ha.trans hp) i ha.ne, mapAt_self h0]
  have hround : ∀ m, Frame (fun b _ => b = h.next) (h.mapAt a i)
        (forN m (fun x => newRow (fun h => h.word a i) x (start x) stop) (h.mapAt a i)) ∧
      Rows (forN m (fun x => newRow (fun h => h.word a i) x (start x) stop) (h.mapAt a i))
        h.next m start stop := by
    intro m
    refine forN_induct (fun m (h' : Heap) => Frame (fun b _ => b = h.next) (h.mapAt a i) h' ∧
      Rows h' h.next m start stop) ⟨.refl _ _, ?_⟩ ?_
    · exact ⟨fun x hx => absurd hx (Nat.not_lt_zero x), fun x _ => mapAt_new h0 ha x,
        fun x hx => absurd hx (Nat.not_lt_zero x)⟩
    · rintro m - h' ⟨hframe, hrows⟩
      have hloc : Stays (fun b j => b = h.next ∧ j = m) h' (fun h => h.word a i) h.next := by
        refine ⟨by omega, hp.trans_le hframe.next_le, ?_⟩
        intro h'' hframe'
        exact hself (hframe.trans hframe' fun _ _ _ hA => hA.1)
      obtain ⟨hframe', -, -⟩ := newRow_spec (start m) stop hloc
      exact ⟨hframe.trans hframe' fun _ _ _ hA => hA.1, hrows.newRow hloc⟩
  have heq : h.newGrid a i n start stop =
      forN n (fun x => newRow (fun h => h.word a i) x (start x) stop) (h.mapAt a i) := by
    simp [newGrid, forLoop]
  obtain ⟨hframe, hrows⟩ := hround n
  rw [heq]
  exact ⟨(mapAt_frame h0 i h).trans hframe fun b hb _ hA => absurd hA hb.ne, hself hframe, hrows⟩

end Heap

end Regions
