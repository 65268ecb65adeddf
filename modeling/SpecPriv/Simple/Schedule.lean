/-
  The stages and the ownership flags that `main` computes.

  `main` keeps the stage of a worker and the flag in variables that it changes
  from iteration to iteration.  Here is what they hold, from the worker and the
  iteration alone: the stage grows by `jump` every `NUM_WORKERS_PER_HEAP`
  iterations, and the flag is set from the first iteration on that the worker
  owns.
-/
import SpecPriv.Simple.Program

namespace SpecPriv.Simple

open Loop

namespace Config
variable (c : Config)

/-- `NUM_WORKERS/NUM_WORKERS_PER_HEAP`, in natural numbers. -/
def groups : ℕ := 12 - c.numAuxWorkers / c.numWorkersPerHeap

/-- `jump` and `NUM_ITERS`, in natural numbers. -/
def stride : ℕ := c.numHeaps / c.groups

def iters : ℕ := c.stride * c.numWorkersPerHeap

/-- The stage of a worker in an iteration. -/
def stageAt (w iter : ℕ) : ℕ :=
  w % c.numWorkersPerHeap + iter / c.numWorkersPerHeap * c.stride

/-- The ownership flag of a worker in an iteration. -/
def flagAt (w iter : ℕ) : ℤ := if w % c.numWorkersPerHeap ≤ iter then 1 else 0

theorem numWorkersDivPerHeap_eq : c.numWorkersDivPerHeap = c.groups := by
  have hlt := c.aux_lt
  have hdiv : c.numAuxWorkers / c.numWorkersPerHeap ≤ c.numAuxWorkers := Nat.div_le_self _ _
  have htdiv : Int.tdiv (c.numAuxWorkers : ℤ) c.numWorkersPerHeap =
      (c.numAuxWorkers / c.numWorkersPerHeap : ℕ) := rfl
  unfold numWorkersDivPerHeap groups
  omega

theorem jump_eq : c.jump = c.stride := by
  unfold jump
  rw [numWorkersDivPerHeap_eq]
  rfl

theorem jump_toNat : c.jump.toNat = c.stride := by rw [jump_eq, Int.toNat_natCast]

theorem numIters_toNat : c.numIters.toNat = c.iters := by
  unfold numIters
  rw [numWorkersDivPerHeap_eq]
  rfl

end Config

/-- The variables of `main` in an iteration. -/
theorem varsAt_eq (c : Config) (w iter : ℕ) : varsAt c.numWorkersPerHeap c.stride w iter =
    ⟨c.stageAt w iter, if w % c.numWorkersPerHeap ≤ iter then 1 else 0⟩ := by
  have hflag : (varsAt c.numWorkersPerHeap c.stride w iter).isMyIter = _ :=
    varsAt_isMyIter c.perHeap_pos iter
  rw [← hflag]
  unfold Config.stageAt
  rw [← varsAt_myStage]

theorem isMyIter_eq (c : Config) (w iter : ℕ) :
    ((varsAt c.numWorkersPerHeap c.stride w iter).isMyIter : ℤ) = c.flagAt w iter := by
  rw [varsAt_eq]
  simp only [Config.flagAt, Nat.cast_ite, Nat.cast_one, Nat.cast_zero]

end SpecPriv.Simple
