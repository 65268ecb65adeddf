/-
  The loops of `main`, which both translations share.

  `main` runs the iterations of one worker after the other.  It keeps the stage
  of the worker and the flag for its own iterations in two variables that it
  changes from iteration to iteration; neither depends on what the calls do.

  * `loopCalls` lists the calls that the loops make, given those of a single
    iteration;
  * `varsAt_myStage`, `varsAt_isMyIter`: what the two variables hold, from the
    worker and the iteration alone;
  * `stages_zero_iff`: when no worker leaves the first stage.
-/
import Mathlib.Algebra.Order.Group.Nat
import Mathlib.Algebra.Order.Ring.Nat
import Mathlib.Data.Nat.Notation
import SpecPriv.Lib.Loop

namespace SpecPriv

universe u v

/-- The variables of the loops of `main`. -/
structure MainVars where
  myStage : ℕ
  isMyIter : ℕ
deriving DecidableEq

variable (numWorkersPerHeap jump w : ℕ)

/-- The variables as a worker starts. -/
def MainVars.start : MainVars := ⟨w % numWorkersPerHeap, 0⟩

/-- The two assignments that an iteration starts with. -/
def MainVars.next (iter : ℕ) (v : MainVars) : MainVars where
  myStage := if iter ≠ 0 ∧ iter % numWorkersPerHeap = 0 then v.myStage + jump else v.myStage
  isMyIter := if w % numWorkersPerHeap = iter % numWorkersPerHeap then 1 else v.isMyIter

/-- The variables after some iterations. -/
def varsAfter : ℕ → MainVars
  | 0 => .start numWorkersPerHeap w
  | iter + 1 => (varsAfter iter).next numWorkersPerHeap jump w iter

/-- The variables in the calls of an iteration. -/
def varsAt (iter : ℕ) : MainVars := varsAfter numWorkersPerHeap jump w (iter + 1)

/-- The loops, given what an iteration does with the variables. -/
def mainLoops {m : Type u → Type v} [Monad m] {σ : Type u}
    (numWorkers numIters numWorkersPerHeap jump : ℕ) (body : ℕ → ℕ → MainVars → σ → m σ) (s : σ) :
    m σ :=
  (List.range numWorkers).foldlM (fun s w => do
    let r ← (List.range numIters).foldlM (fun (r : MainVars × σ) iter => do
      let v := r.1.next numWorkersPerHeap jump w iter
      let s ← body w iter v r.2
      pure (v, s)) (MainVars.start numWorkersPerHeap w, s)
    pure r.2) s

/-- The calls that the loops make, given those of an iteration. -/
def loopCalls {α : Type*} (numWorkers numIters numWorkersPerHeap jump : ℕ)
    (body : ℕ → ℕ → MainVars → List α) : List α :=
  (List.range numWorkers).flatMap fun w => (List.range numIters).flatMap fun iter =>
    body w iter (varsAt numWorkersPerHeap jump w iter)

variable {numWorkersPerHeap jump w}

theorem varsAfter_succ (iter : ℕ) : varsAfter numWorkersPerHeap jump w (iter + 1) =
    (varsAfter numWorkersPerHeap jump w iter).next numWorkersPerHeap jump w iter := rfl

theorem varsAfter_zero : varsAfter numWorkersPerHeap jump w 0 = .start numWorkersPerHeap w := rfl

section Loops

variable {m : Type u → Type v} [Monad m] [LawfulMonad m] {σ : Type u}

/-- The inner loop of `main`, with its variables in closed form. -/
theorem mainIters_eq (w : ℕ) (body : ℕ → MainVars → σ → m σ) (n : ℕ) (s : σ) :
    (List.range n).foldlM (fun (r : MainVars × σ) iter => do
        let v := r.1.next numWorkersPerHeap jump w iter
        let s ← body iter v r.2
        pure (v, s)) (MainVars.start numWorkersPerHeap w, s) =
      (fun s => (varsAfter numWorkersPerHeap jump w n, s)) <$>
        (List.range n).foldlM
          (fun s iter => body iter (varsAt numWorkersPerHeap jump w iter) s) s := by
  induction n with
  | zero => simp [varsAfter_zero]
  | succ n ih =>
    rw [List.range_succ, List.foldlM_append, ih, List.foldlM_append]
    simp [varsAt, varsAfter_succ]

/-- The loops make the calls of `loopCalls`, one after the other. -/
theorem mainLoops_eq {α : Type*} {exec : σ → α → m σ} {body : ℕ → ℕ → MainVars → σ → m σ}
    {calls : ℕ → ℕ → MainVars → List α}
    (hbody : ∀ w iter v s, body w iter v s = (calls w iter v).foldlM exec s)
    (numWorkers numIters : ℕ) (s : σ) :
    mainLoops numWorkers numIters numWorkersPerHeap jump body s =
      (loopCalls numWorkers numIters numWorkersPerHeap jump calls).foldlM exec s := by
  have hworker (s : σ) (w : ℕ) : (do
      let r ← (List.range numIters).foldlM (fun (r : MainVars × σ) iter => do
        let v := r.1.next numWorkersPerHeap jump w iter
        let s ← body w iter v r.2
        pure (v, s)) (MainVars.start numWorkersPerHeap w, s)
      pure r.2) = ((List.range numIters).flatMap fun iter =>
        calls w iter (varsAt numWorkersPerHeap jump w iter)).foldlM exec s := by
    rw [mainIters_eq w (body w), Loop.foldlM_flatMap]
    simp [hbody]
  unfold mainLoops loopCalls
  rw [Loop.foldlM_flatMap]
  simp only [hworker]

end Loops

theorem mem_loopCalls {α : Type*} {numWorkers numIters : ℕ} {body : ℕ → ℕ → MainVars → List α}
    {call : α} : call ∈ loopCalls numWorkers numIters numWorkersPerHeap jump body ↔
      ∃ w < numWorkers, ∃ iter < numIters,
        call ∈ body w iter (varsAt numWorkersPerHeap jump w iter) := by
  simp [loopCalls]

/-- The stage grows by `jump` every `NUM_WORKERS_PER_HEAP` iterations. -/
theorem varsAt_myStage (iter : ℕ) :
    (varsAt numWorkersPerHeap jump w iter).myStage =
      w % numWorkersPerHeap + iter / numWorkersPerHeap * jump := by
  induction iter with
  | zero => simp [varsAt, varsAfter, MainVars.next, MainVars.start]
  | succ iter ih =>
    rw [varsAt] at ih
    simp only [varsAt, varsAfter_succ (iter + 1), MainVars.next, ih, Nat.succ_div]
    by_cases hdvd : numWorkersPerHeap ∣ iter + 1
    · rw [if_pos ⟨Nat.succ_ne_zero iter, Nat.mod_eq_zero_of_dvd hdvd⟩, if_pos hdvd, Nat.add_mul]
      omega
    · have hmod : ¬ (iter + 1 ≠ 0 ∧ (iter + 1) % numWorkersPerHeap = 0) := by
        rintro ⟨-, h0⟩
        exact hdvd (Nat.dvd_of_mod_eq_zero h0)
      rw [if_neg hmod, if_neg hdvd, Nat.add_zero]

/-- No worker comes to a stage but the first one, if there is no iteration, or one
    for every worker of a stage and one worker for a stage or one at all. -/
theorem stages_zero_iff {numWorkers : ℕ} (hk : 0 < numWorkersPerHeap) (hw : 0 < numWorkers) :
    (∀ w < numWorkers, ∀ iter < jump * numWorkersPerHeap,
        (varsAt numWorkersPerHeap jump w iter).myStage = 0) ↔
      jump = 0 ∨ jump = 1 ∧ (numWorkersPerHeap = 1 ∨ numWorkers = 1) := by
  simp only [varsAt_myStage]
  constructor
  · intro h
    rcases Nat.lt_trichotomy jump 1 with hlt | rfl | hgt
    · exact .inl (Nat.lt_one_iff.1 hlt)
    · refine .inr ⟨rfl, ?_⟩
      by_contra hc
      push Not at hc
      -- the second worker starts at stage `1`
      have hmod : 1 % numWorkersPerHeap = 1 := Nat.mod_eq_of_lt (by omega)
      have := h 1 (by omega) 0 (by omega)
      omega
    · -- the first worker jumps after the first group of iterations
      have hiter : numWorkersPerHeap < jump * numWorkersPerHeap :=
        (Nat.lt_mul_iff_one_lt_left hk).2 hgt
      have := h 0 hw numWorkersPerHeap hiter
      rw [Nat.div_self hk] at this
      omega
  · rintro (rfl | ⟨rfl, hone⟩) w hw iter hiter
    · rw [Nat.zero_mul] at hiter
      exact absurd hiter (Nat.not_lt_zero iter)
    · rw [Nat.one_mul] at hiter
      rw [Nat.div_eq_of_lt hiter]
      rcases hone with rfl | rfl
      · rw [Nat.mod_one]
      · obtain rfl : w = 0 := by omega
        rw [Nat.zero_mod]

/-- The flag is set in the first iteration that the worker owns, and stays. -/
theorem varsAt_isMyIter (hk : 0 < numWorkersPerHeap) (iter : ℕ) :
    (varsAt numWorkersPerHeap jump w iter).isMyIter =
      if w % numWorkersPerHeap ≤ iter then 1 else 0 := by
  have hw : w % numWorkersPerHeap < numWorkersPerHeap := Nat.mod_lt _ hk
  induction iter with
  | zero => by_cases h0 : w % numWorkersPerHeap = 0 <;>
      simp [varsAt, varsAfter, MainVars.next, MainVars.start, h0]
  | succ iter ih =>
    rw [varsAt] at ih
    simp only [varsAt, varsAfter_succ (iter + 1), MainVars.next, ih]
    rcases lt_trichotomy (w % numWorkersPerHeap) (iter + 1) with hlt | heq | hgt
    · rw [if_pos (Nat.le_of_lt_succ hlt), ite_self, if_pos hlt.le]
    · rw [← heq, Nat.mod_eq_of_lt hw, if_pos rfl, if_pos le_rfl]
    · rw [Nat.mod_eq_of_lt (hgt.trans hw), if_neg hgt.ne', if_neg (by omega), if_neg (by omega)]

end SpecPriv
