/-
  Slots that are filled first fit, with eviction.

  Items are put one by one into the first of `size` slots that has not reached
  the capacity; when all are full, two items of slot `0` are dropped first.
  Finding slot `c` takes `c` probes, finding none takes `size`.

  * `put_weight`: the number of probes is the change of a weighted sum of the
    levels, so the probes of any sequence of puts telescope, from every state
    and however puts into several groups of slots interleave;
  * `inRange_put`: levels stay between `0` and the capacity;
  * `full_of_puts`: with enough puts all slots are full;
  * `levels_puts`: what enough puts into slots that are full or empty do, and
    how many probes they take.
-/
import Mathlib.Algebra.BigOperators.Intervals
import Mathlib.Algebra.BigOperators.Ring.Finset
import Mathlib.Algebra.Order.BigOperators.Group.Finset
import Mathlib.Tactic.Ring

namespace FirstFit

open Finset

/-- The first index from `idx` on, at most `n` further, that is not full. -/
def find (full : ℕ → Bool) : ℕ → ℕ → ℕ
  | 0, idx => idx
  | n + 1, idx => if full idx then find full n (idx + 1) else idx

theorem find_spec (full : ℕ → Bool) : ∀ n idx, idx ≤ find full n idx ∧ find full n idx ≤ idx + n ∧
    (∀ c, idx ≤ c → c < find full n idx → full c) ∧
    (find full n idx < idx + n → ¬ full (find full n idx))
  | 0, idx =>
    ⟨le_rfl, le_rfl, fun c h h' => absurd h' (not_lt.2 h), fun h => absurd h (lt_irrefl _)⟩
  | n + 1, idx => by
    unfold find
    split_ifs with hf
    · obtain ⟨h1, h2, h3, h4⟩ := find_spec full n (idx + 1)
      refine ⟨by omega, by omega, ?_, ?_⟩
      · intro c hc hc'
        rcases Nat.eq_or_lt_of_le hc with rfl | hlt
        · exact hf
        · exact h3 c hlt hc'
      · intro h
        exact h4 (by omega)
    · exact ⟨le_rfl, by omega, fun c h h' => absurd h' (not_lt.2 h), fun _ => hf⟩

theorem find_self {full : ℕ → Bool} {idx : ℕ} (h : full idx = false) :
    ∀ n, find full n idx = idx
  | 0 => rfl
  | n + 1 => by simp [find, h]

/-- Only the tests of the indices that are searched matter. -/
theorem find_congr {full full' : ℕ → Bool} : ∀ {n idx}, (∀ c, c < idx + n → full c = full' c) →
    find full n idx = find full' n idx
  | 0, _, _ => rfl
  | n + 1, idx, h => by
    unfold find
    rw [h idx (by omega), find_congr fun c hc => h c (by omega)]

variable (cap : ℤ) (size : ℕ)

/-- The number of probes: the first slot with space, or `size`. -/
def probes (t : ℕ → ℤ) : ℕ := find (fun c => cap ≤ t c) size 0

/-- Put one item. -/
def put (t : ℕ → ℤ) : ℕ → ℤ :=
  if probes cap size t = size then Function.update t 0 (t 0 - 2 + 1)
  else Function.update t (probes cap size t) (t (probes cap size t) + 1)

/-- The number of items in the slots. -/
def level (t : ℕ → ℤ) : ℤ := ∑ c ∈ range size, t c

/-- The items, weighted by their slots. -/
def weight (t : ℕ → ℤ) : ℤ := ∑ c ∈ range size, (2 * c - size) * t c

def InRange (t : ℕ → ℤ) : Prop := ∀ c < size, 0 ≤ t c ∧ t c ≤ cap

def Full (t : ℕ → ℤ) : Prop := ∀ c < size, t c = cap

variable {cap size} {t t' : ℕ → ℤ}

theorem probes_le : probes cap size t ≤ size := by
  obtain ⟨-, hle, -, -⟩ := find_spec (fun c => cap ≤ t c) size 0
  rwa [Nat.zero_add] at hle

theorem le_of_lt_probes {c : ℕ} (h : c < probes cap size t) : cap ≤ t c := by
  obtain ⟨-, -, hfull, -⟩ := find_spec (fun c => cap ≤ t c) size 0
  exact of_decide_eq_true (hfull c (Nat.zero_le c) h)

theorem lt_of_probes_lt (h : probes cap size t < size) : t (probes cap size t) < cap := by
  obtain ⟨-, -, -, hlt⟩ := find_spec (fun c => cap ≤ t c) size 0
  rw [Nat.zero_add] at hlt
  by_contra hle
  exact hlt h (decide_eq_true (not_lt.1 hle))

theorem update_add (t : ℕ → ℤ) (i : ℕ) (d : ℤ) :
    Function.update t i (t i + d) = fun c => t c + if c = i then d else 0 := by
  funext c
  rw [Function.update_apply]
  split_ifs with h
  · rw [h]
  · rw [add_zero]

theorem level_update {i : ℕ} (hi : i < size) (d : ℤ) :
    level size (Function.update t i (t i + d)) = level size t + d := by
  rw [update_add, level, sum_add_distrib, sum_ite_eq' (range size) i, if_pos (mem_range.2 hi),
    level]

theorem weight_update {i : ℕ} (hi : i < size) (d : ℤ) :
    weight size (Function.update t i (t i + d)) = weight size t + (2 * i - size) * d := by
  rw [update_add]
  simp only [weight, mul_add, sum_add_distrib, mul_ite, mul_zero]
  rw [sum_ite_eq' (range size) i, if_pos (mem_range.2 hi)]

/-- What a put does: the level of one slot changes by one. -/
theorem put_cases (cap : ℤ) (size : ℕ) (t : ℕ → ℤ) :
    (probes cap size t < size ∧ t (probes cap size t) < cap ∧
      put cap size t = Function.update t (probes cap size t) (t (probes cap size t) + 1)) ∨
    (probes cap size t = size ∧ (∀ c < size, cap ≤ t c) ∧
      put cap size t = Function.update t 0 (t 0 + -1)) := by
  rcases probes_le.lt_or_eq with h | h
  · exact Or.inl ⟨h, lt_of_probes_lt h, if_neg h.ne⟩
  · refine Or.inr ⟨h, ?_, ?_⟩
    · intro c hc
      exact le_of_lt_probes (by rwa [h])
    · rw [put, if_pos h]
      congr 1
      omega

/-- **The probes of a put are paid by the weight.** -/
theorem put_weight (cap : ℤ) (size : ℕ) (t : ℕ → ℤ) :
    2 * (probes cap size t : ℤ) = size + (weight size (put cap size t) - weight size t) := by
  rcases put_cases cap size t with ⟨h, -, hput⟩ | ⟨h, -, hput⟩
  · rw [hput, weight_update h]
    ring
  · rw [hput, h]
    rcases Nat.eq_zero_or_pos size with rfl | hpos
    · simp [weight]
    · rw [weight_update hpos]
      push_cast
      ring

theorem inRange_put (h : InRange cap size t) (hcap : 1 ≤ cap) :
    InRange cap size (put cap size t) := by
  intro c hc
  rcases put_cases cap size t with ⟨-, hlt, hput⟩ | ⟨-, hfull, hput⟩
  · rw [hput, Function.update_apply]
    split_ifs with hcp
    · have := h c hc
      rw [hcp] at this
      omega
    · exact h c hc
  · rw [hput, Function.update_apply]
    split_ifs with hc0
    · have h0 := h c hc
      have hge := hfull c hc
      rw [hc0] at h0 hge
      omega
    · exact h c hc

/-! ## Many puts -/

theorem inRange_puts (h : InRange cap size t) (hcap : 1 ≤ cap) (n : ℕ) :
    InRange cap size ((put cap size)^[n] t) := by
  induction n with
  | zero => exact h
  | succ n ih =>
    rw [Function.iterate_succ_apply']
    exact inRange_put ih hcap

theorem InRange.level_le (h : InRange cap size t) : level size t ≤ size * cap := by
  have := sum_le_card_nsmul (range size) t cap fun c hc => (h c (mem_range.1 hc)).2
  rwa [card_range, nsmul_eq_mul] at this

theorem InRange.full_of_level (h : InRange cap size t) (hl : level size t = size * cap) :
    Full cap size t := by
  have hle : ∀ c ∈ range size, t c ≤ cap := fun c hc => (h c (mem_range.1 hc)).2
  have hsum : ∑ c ∈ range size, t c = ∑ c ∈ range size, cap := by
    rw [sum_const, card_range, nsmul_eq_mul]
    exact hl
  intro c hc
  exact (sum_eq_sum_iff_of_le hle).1 hsum c (mem_range.2 hc)

theorem Full.level (h : Full cap size t) : level size t = size * cap := by
  rw [FirstFit.level, sum_congr rfl fun c hc => h c (mem_range.1 hc), sum_const, card_range,
    nsmul_eq_mul]

/-- The level after `n` puts: as many more, or one below full; the parity tells
    which. -/
theorem puts_level (h : InRange cap size t) (hcap : 1 ≤ cap) (hsize : 0 < size) (n : ℕ) :
    (2 : ℤ) ∣ level size t + n - level size ((put cap size)^[n] t) ∧
    min (level size t + n) (size * cap - 1) ≤ level size ((put cap size)^[n] t) := by
  induction n with
  | zero => simp
  | succ n ih =>
    rw [Function.iterate_succ_apply']
    obtain ⟨hpar, hmin⟩ := ih
    have hr := inRange_puts h hcap n
    generalize (put cap size)^[n] t = u at hpar hmin hr
    rcases put_cases cap size u with ⟨hlt, -, hput⟩ | ⟨-, hfull, hput⟩
    · rw [hput, level_update hlt]
      push_cast
      constructor <;> omega
    · have hall : Full cap size u := by
        intro c hc
        exact le_antisymm (hr c hc).2 (hfull c hc)
      have hlevel := hall.level
      rw [hput, level_update hsize]
      push_cast
      constructor <;> omega

/-- Enough puts fill all the slots, if their number is even with the items that
    are there, and so is the number of places. -/
theorem full_of_puts (h : InRange cap size t) (hcap : 1 ≤ cap) (hsize : 0 < size) {n : ℕ}
    (hn : size * cap ≤ level size t + n) (heven : (2 : ℤ) ∣ level size t + n)
    (hplaces : (2 : ℤ) ∣ size * cap) : Full cap size ((put cap size)^[n] t) := by
  obtain ⟨hpar, hmin⟩ := puts_level h hcap hsize n
  have hr := inRange_puts h hcap n
  have hle := hr.level_le
  exact hr.full_of_level (by omega)

/-! ## Slots that are full or empty -/

section Levels

variable {capacity : ℕ} {full : ℕ → Bool} {n : ℕ}

/-- Every slot is full or empty, as `full` says. -/
def Levels (capacity size : ℕ) (full : ℕ → Bool) (t : ℕ → ℤ) : Prop :=
  ∀ c < size, t c = if full c then (capacity : ℤ) else 0

/-- The slots that are not full. -/
def gaps (size : ℕ) (full : ℕ → Bool) : Finset ℕ := {c ∈ range size | full c = false}

/-- The probes of `n` puts, enough to fill all the slots: the empty slots are
    filled in order, and from then on every second put finds no space. -/
def fillProbes (capacity size : ℕ) (full : ℕ → Bool) (n : ℕ) : ℕ :=
  if n = 0 then 0
  else capacity * ∑ c ∈ gaps size full, c + (n - capacity * #(gaps size full)) / 2 * size

theorem Levels.inRange (h : Levels capacity size full t) : InRange capacity size t := by
  intro c hc
  rw [h c hc]
  split_ifs
  · exact ⟨Int.natCast_nonneg _, le_rfl⟩
  · exact ⟨le_rfl, Int.natCast_nonneg _⟩

theorem Levels.even_level (h : Levels capacity size full t) (heven : 2 ∣ capacity) :
    (2 : ℤ) ∣ level size t := by
  refine dvd_sum ?_
  intro c hc
  rw [h c (mem_range.1 hc)]
  split_ifs
  · exact Int.natCast_dvd_natCast.2 heven
  · exact dvd_zero 2

/-- What filling the gaps adds to the weight. -/
theorem Levels.weight_full (h : Levels capacity size full t) (h' : Full capacity size t') :
    weight size t' - weight size t =
      2 * (capacity * ∑ c ∈ gaps size full, (c : ℤ)) - capacity * #(gaps size full) * size := by
  have hterm : ∀ c ∈ range size, (2 * c - size : ℤ) * t' c - (2 * c - size) * t c =
      if full c = false then (2 * c - size) * (capacity : ℤ) else 0 := by
    intro c hc
    rw [h c (mem_range.1 hc), h' c (mem_range.1 hc)]
    cases full c <;> simp
  rw [weight, weight, ← sum_sub_distrib, sum_congr rfl hterm, ← sum_filter, ← gaps, ← sum_mul,
    sum_sub_distrib, ← mul_sum, sum_const, nsmul_eq_mul]
  ring

theorem card_gaps_le : #(gaps size full) ≤ size :=
  (card_filter_le _ _).trans (card_range size).le

/-- **Enough puts into full and empty slots** make all of them full, and take
    `fillProbes` probes. -/
theorem levels_puts (h : Levels capacity size full t) (heven : 2 ∣ capacity) (hcap : 0 < capacity)
    (hn : 2 ∣ n) (henough : 0 < n → size * capacity ≤ n) :
    Levels capacity size (fun c => full c || decide (0 < n)) ((put capacity size)^[n] t) ∧
    2 * (fillProbes capacity size full n : ℤ) =
      n * size + (weight size ((put capacity size)^[n] t) - weight size t) := by
  rcases Nat.eq_zero_or_pos n with rfl | hpos
  · exact ⟨by simpa using h, by simp [fillProbes]⟩
  have hfull : Full capacity size ((put capacity size)^[n] t) := by
    rcases Nat.eq_zero_or_pos size with rfl | hsize
    · intro c hc
      exact absurd hc (Nat.not_lt_zero c)
    · have hlevel := h.even_level heven
      have hge : 0 ≤ level size t := sum_nonneg fun c hc => (h.inRange c (mem_range.1 hc)).1
      have hle : (size * capacity : ℤ) ≤ n := by exact_mod_cast henough hpos
      refine full_of_puts h.inRange (by exact_mod_cast hcap) hsize (by omega)
        (dvd_add hlevel (Int.natCast_dvd_natCast.2 hn)) ?_
      exact dvd_mul_of_dvd_right (Int.natCast_dvd_natCast.2 heven) _
  constructor
  · intro c hc
    simp [hfull c hc, hpos]
  -- the puts that remain when the gaps are filled
  obtain ⟨half, hhalf⟩ : 2 ∣ n - capacity * #(gaps size full) :=
    Nat.dvd_sub hn (Dvd.dvd.mul_right heven _)
  have hle : capacity * #(gaps size full) ≤ n :=
    (Nat.mul_le_mul_left _ card_gaps_le).trans (Nat.mul_comm capacity size ▸ henough hpos)
  have hrest : (n : ℤ) = capacity * #(gaps size full) + 2 * half := by
    exact_mod_cast (by omega : n = capacity * #(gaps size full) + 2 * half)
  rw [h.weight_full hfull, fillProbes, if_neg hpos.ne', hhalf, Nat.mul_div_cancel_left _ two_pos,
    hrest]
  push_cast
  ring

end Levels

end FirstFit
