/-
  What a program adds to a meter.

  `Adds I P k f`: from the states of the invariant `I`, the function `f` keeps
  `I` and adds `k` to the meter `P`.  The amounts of functions one after the
  other add up, and those of the rounds of a loop are summed.

  `Within P lo hi f`: in every state `f` adds at least `lo` and at most `hi`.

  `Spends P k f`: the program `f`, which may stop, has added `k` when it returns.
-/
import Mathlib.Algebra.BigOperators.Intervals
import Mathlib.Algebra.Group.Action.Defs
import SpecPriv.Lib.Stopping

namespace Meter

open Finset Loop

variable {σ : Type*}

/-- From the states of `I`, `f` keeps `I` and adds `k` to `P`. -/
def Adds (I : σ → Prop) (P : σ → ℕ) (k : ℕ) (f : σ → σ) : Prop :=
  ∀ s, I s → I (f s) ∧ P (f s) = P s + k

namespace Adds

variable {I : σ → Prop} {P : σ → ℕ} {k k' : ℕ} {f g : σ → σ}

theorem comp (hf : Adds I P k f) (hg : Adds I P k' g) : Adds I P (k + k') fun s => g (f s) := by
  intro s hs
  obtain ⟨hI, hP⟩ := hf s hs
  obtain ⟨hI', hP'⟩ := hg (f s) hI
  exact ⟨hI', by rw [hP', hP, Nat.add_assoc]⟩

theorem forLoop {body : ℕ → σ → σ} {k : ℕ → ℕ} (start stop : ℕ)
    (h : ∀ i, start ≤ i → i < stop → Adds I P (k i) (body i)) :
    Adds I P (∑ i ∈ range (stop - start), k (start + i)) (Loop.forLoop start stop 1 body) := by
  intro s hs
  rw [Loop.forLoop, rounds_one]
  refine forN_induct (fun j s' => I s' ∧ P s' = P s + ∑ i ∈ range j, k (start + i)) ⟨hs, by simp⟩ ?_
  rintro j hj s' ⟨hI, hP⟩
  obtain ⟨hI', hP'⟩ := h (start + 1 * j) (Nat.le_add_right _ _) (by omega) s' hI
  refine ⟨hI', ?_⟩
  rw [hP', hP, sum_range_succ, Nat.one_mul, Nat.add_assoc]

/-- A loop all of whose rounds add the same. -/
theorem forLoop_const {body : ℕ → σ → σ} (start stop : ℕ)
    (h : ∀ i, start ≤ i → i < stop → Adds I P k (body i)) :
    Adds I P ((stop - start) * k) (Loop.forLoop start stop 1 body) := by
  have := Adds.forLoop start stop h
  rwa [sum_const, card_range, smul_eq_mul] at this

end Adds

/-- In every state `f` adds at least `lo` and at most `hi` to `P`. -/
def Within (P : σ → ℕ) (lo hi : ℕ) (f : σ → σ) : Prop :=
  ∀ s, P s + lo ≤ P (f s) ∧ P (f s) ≤ P s + hi

namespace Within

variable {P : σ → ℕ} {lo hi lo' hi' : ℕ} {f g : σ → σ}

theorem comp (hf : Within P lo hi f) (hg : Within P lo' hi' g) :
    Within P (lo + lo') (hi + hi') fun s => g (f s) := by
  intro s
  have hfirst := hf s
  have hsecond := hg (f s)
  dsimp only
  omega

/-- A loop all of whose rounds add within the same bounds. -/
theorem forLoop {body : ℕ → σ → σ} (start stop step : ℕ) (h : ∀ i, Within P lo hi (body i)) :
    Within P (rounds start stop step * lo) (rounds start stop step * hi)
      (Loop.forLoop start stop step body) := by
  intro s
  refine forN_induct (fun j s' => P s + j * lo ≤ P s' ∧ P s' ≤ P s + j * hi) (by simp) ?_
  intro j _ s' hs'
  have hround := h (start + step * j) s'
  rw [Nat.succ_mul, Nat.succ_mul]
  omega

end Within

/-- When `f` returns, it has added `k` to `P`. -/
def Spends (P : σ → ℕ) (k : ℕ) (f : σ → Except σ σ) : Prop :=
  ∀ s s', f s = .ok s' → P s' = P s + k

namespace Spends

variable {P : σ → ℕ} {k k' : ℕ} {f g : σ → Except σ σ}

theorem ok {f : σ → σ} (h : ∀ s, P (f s) = P s + k) : Spends P k fun s => .ok (f s) := by
  intro s s' hs'
  obtain rfl := Except.ok.inj hs'
  exact h s

theorem bind (hf : Spends P k f) (hg : Spends P k' g) : Spends P (k + k') fun s => f s >>= g := by
  intro s s'' hs''
  obtain ⟨s', hs', hrest⟩ := Stopping.bind_eq_ok hs''
  rw [hg s' s'' hrest, hf s s' hs', Nat.add_assoc]

/-- A loop all of whose rounds add the same. -/
theorem forLoop {body : ℕ → σ → Except σ σ} (start stop step : ℕ) (h : ∀ i, Spends P k (body i)) :
    Spends P (rounds start stop step * k) (Stopping.forLoop start stop step body) := by
  unfold Stopping.forLoop
  generalize rounds start stop step = n
  induction n with
  | zero =>
    rw [Nat.zero_mul]
    exact ok fun _ => rfl
  | succ n ih =>
    rw [Nat.succ_mul]
    exact ih.bind (h _)

/-- Calls one after the other. -/
theorem foldlM {α : Type*} {exec : σ → α → Except σ σ} {k : α → ℕ}
    (h : ∀ a, Spends P (k a) fun s => exec s a) :
    ∀ calls : List α, Spends P (calls.map k).sum fun s => calls.foldlM exec s
  | [] => ok fun _ => rfl
  | call :: calls => by
    rw [List.map_cons, List.sum_cons]
    exact (h call).bind (foldlM h calls)

end Spends

end Meter
