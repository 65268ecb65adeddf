/-
  The calls of `main`.

  Between the beginning and the end of the invocation, `main` makes a list of
  calls that depends on the constants alone: `main_eq`.  So what is said about
  the calls of `main` is said about `Config.mainCalls`, and what is said about
  its states is said about the runs of such lists.

  `followsSchedule_iff`: when the schedule of the calls is the one that the number of
  workers implies.
-/
import SpecPriv.Simple.Invocation
import SpecPriv.Simple.Schedule

namespace SpecPriv.Simple

open Loop

/-- A call of the loops of `main`, with the names of the callee's parameters. -/
inductive MainCall
  | beginIter (wid iter myStage isMyIter : ℤ)
  | busyWait (wid : ℤ)
  | endIter (wid myStage isMyIter : ℤ)
deriving DecidableEq

def MainCall.exec (c : Config) (fuel : ℕ) (st : State) : MainCall → Option State
  | beginIter wid iter myStage isMyIter => Simple.beginIter c fuel wid iter myStage isMyIter st
  | busyWait wid => Simple.busyWait wid fuel st
  | endIter wid myStage isMyIter => some (Simple.endIter c wid myStage isMyIter st)

/-- Make the calls one after the other. -/
def runMain (c : Config) (fuel : ℕ) (calls : List MainCall) (st : State) : Option State :=
  calls.foldlM (MainCall.exec c fuel) st

/-- The calls of an iteration.  The last one passes the iteration for the
    stage, and the stage for the flag. -/
def iterCalls (w iter : ℕ) (v : MainVars) : List MainCall :=
  .beginIter w iter v.myStage v.isMyIter ::
    ((if iter = 0 then [.busyWait w] else []) ++ [.endIter w iter v.myStage])

/-- The calls of the loops of `main`. -/
def driverCalls (numWorkers numIters numWorkersPerHeap jump : ℕ) : List MainCall :=
  loopCalls numWorkers numIters numWorkersPerHeap jump iterCalls

def Config.mainCalls (c : Config) : List MainCall :=
  driverCalls c.width c.iters c.numWorkersPerHeap c.stride

/-- The calls of the first `n` iterations of a worker. -/
def Config.workerCalls (c : Config) (w n : ℕ) : List MainCall :=
  (List.range n).flatMap fun iter =>
    iterCalls w iter (varsAt c.numWorkersPerHeap c.stride w iter)

variable {c : Config} {fuel : ℕ}

theorem beginIter_mem_iterCalls {wid it myStage isMyIter : ℤ} {w iter : ℕ} {v : MainVars} :
    .beginIter wid it myStage isMyIter ∈ iterCalls w iter v ↔
      wid = w ∧ it = iter ∧ myStage = v.myStage ∧ isMyIter = v.isMyIter := by
  unfold iterCalls
  split_ifs <;> simp

theorem endIter_mem_iterCalls {wid myStage isMyIter : ℤ} {w iter : ℕ} {v : MainVars} :
    .endIter wid myStage isMyIter ∈ iterCalls w iter v ↔
      wid = w ∧ myStage = iter ∧ isMyIter = v.myStage := by
  unfold iterCalls
  split_ifs <;> simp

/-! ## The run of `main` -/

theorem Config.workerCalls_succ (c : Config) (w n : ℕ) : c.workerCalls w (n + 1) =
    c.workerCalls w n ++ iterCalls w n (varsAt c.numWorkersPerHeap c.stride w n) := by
  rw [workerCalls, List.range_succ, List.flatMap_append, List.flatMap_singleton]
  rfl

theorem runMain_append (calls calls' : List MainCall) (st : State) :
    runMain c fuel (calls ++ calls') st =
      (runMain c fuel calls st).bind (runMain c fuel calls') :=
  List.foldlM_append

theorem runMain_cons (call : MainCall) (calls : List MainCall) (st : State) :
    runMain c fuel (call :: calls) st = (call.exec c fuel st).bind (runMain c fuel calls) := rfl

theorem mainIter_eq (w iter : ℕ) (v : MainVars) (st : State) :
    mainIter c fuel w iter v st = (iterCalls w iter v).foldlM (MainCall.exec c fuel) st := by
  unfold mainIter iterCalls
  by_cases h0 : iter = 0 <;> simp [h0, MainCall.exec]

/-- **`main` makes the calls of `mainCalls`**, and begins and ends the
    invocation before and after. -/
theorem main_eq (c : Config) (fuel : ℕ) : main c fuel =
    (runMain c fuel c.mainCalls (beginInvocation c (.init c))).map (endInvocation c) := by
  have hloops (st : State) : mainLoops c.width c.iters c.numWorkersPerHeap c.stride
      (mainIter c fuel) st = runMain c fuel c.mainCalls st :=
    mainLoops_eq mainIter_eq c.width c.iters st
  unfold main
  dsimp only
  rw [c.numWorkers_toNat, c.numIters_toNat, c.jump_toNat, hloops]
  cases runMain c fuel c.mainCalls (beginInvocation c (.init c)) <;> rfl

/-! ## The schedule -/

/-- The calls of `begin_iter`: worker, iteration and stage. -/
def scheduleOf (calls : List MainCall) : List (ℤ × ℤ × ℤ) :=
  calls.filterMap fun
    | .beginIter wid iter myStage _ => some (wid, iter, myStage)
    | _ => none

/-- The schedule of `numWorkers` workers for a stage jump. -/
def scheduleFor (numWorkers numIters numWorkersPerHeap jump : ℕ) : List (ℤ × ℤ × ℤ) :=
  (List.range numWorkers).flatMap fun w : ℕ => (List.range numIters).map fun iter : ℕ =>
    ((w : ℤ), (iter : ℤ), ((w % numWorkersPerHeap + iter / numWorkersPerHeap * jump : ℕ) : ℤ))

theorem scheduleOf_iterCalls (w iter : ℕ) (v : MainVars) :
    scheduleOf (iterCalls w iter v) = [((w : ℤ), (iter : ℤ), (v.myStage : ℤ))] := by
  unfold scheduleOf iterCalls
  split_ifs <;> rfl

theorem scheduleOf_driverCalls (numWorkers numIters numWorkersPerHeap jump : ℕ) :
    scheduleOf (driverCalls numWorkers numIters numWorkersPerHeap jump) =
      scheduleFor numWorkers numIters numWorkersPerHeap jump := by
  have hiter (w iter : ℕ) :
      scheduleOf (iterCalls w iter (varsAt numWorkersPerHeap jump w iter)) =
        [((w : ℤ), (iter : ℤ),
          ((w % numWorkersPerHeap + iter / numWorkersPerHeap * jump : ℕ) : ℤ))] := by
    rw [scheduleOf_iterCalls, varsAt_myStage]
  unfold scheduleOf at hiter ⊢
  unfold driverCalls loopCalls scheduleFor
  simp only [List.filterMap_flatMap, hiter, ← List.map_eq_flatMap]

theorem scheduleFor_length (numWorkers numIters numWorkersPerHeap jump : ℕ) :
    (scheduleFor numWorkers numIters numWorkersPerHeap jump).length = numWorkers * numIters := by
  simp [scheduleFor]

/-- The schedule is the one of `W` workers, `NUM_WORKERS_PER_HEAP` for a stage. -/
def Config.FollowsSchedule (c : Config) : Prop :=
  scheduleOf c.mainCalls =
    scheduleFor c.width (c.numHeaps / (c.width / c.numWorkersPerHeap) * c.numWorkersPerHeap)
      c.numWorkersPerHeap (c.numHeaps / (c.width / c.numWorkersPerHeap))

/-- With the textual macro only the auxiliary workers are divided. -/
theorem Config.two_mul_le_groups (c : Config) (hk : 2 ≤ c.numWorkersPerHeap) :
    2 * (c.width / c.numWorkersPerHeap) ≤ c.groups := by
  have hwidth : 2 * (c.width / c.numWorkersPerHeap) ≤ c.width :=
    (Nat.mul_le_mul_right _ hk).trans (Nat.mul_div_le _ _)
  have haux : c.numAuxWorkers / c.numWorkersPerHeap ≤ c.numAuxWorkers := Nat.div_le_self _ _
  unfold groups
  unfold width at hwidth ⊢
  omega

theorem followsSchedule_iff_stride (c : Config) :
    c.FollowsSchedule ↔ c.stride = c.numHeaps / (c.width / c.numWorkersPerHeap) := by
  have haux := c.aux_lt
  have hwidth : 0 < c.width := by
    unfold Config.width
    omega
  unfold Config.FollowsSchedule Config.mainCalls Config.iters
  rw [scheduleOf_driverCalls]
  constructor
  · intro h
    have hlen := congrArg List.length h
    rw [scheduleFor_length, scheduleFor_length] at hlen
    exact Nat.eq_of_mul_eq_mul_right c.perHeap_pos (Nat.eq_of_mul_eq_mul_left hwidth hlen)
  · intro h
    rw [h]

/-- **When the schedule is the one that the workers imply**: with one worker
    for a stage, or with too few heaps for any iteration. -/
theorem followsSchedule_iff (c : Config) (hk : c.numWorkersPerHeap ≤ c.width) :
    c.FollowsSchedule ↔
      c.numWorkersPerHeap = 1 ∨ c.numHeaps < c.width / c.numWorkersPerHeap := by
  rw [followsSchedule_iff_stride]
  have hgroup : 0 < c.width / c.numWorkersPerHeap := Nat.div_pos hk c.perHeap_pos
  unfold Config.stride
  by_cases hone : c.numWorkersPerHeap = 1
  · simp [hone, Config.groups, Config.width]
  · have htwo := c.two_mul_le_groups (by have := c.perHeap_pos; omega)
    generalize c.width / c.numWorkersPerHeap = g at hgroup htwo ⊢
    rw [or_iff_right hone]
    constructor
    · intro h
      by_contra hle
      -- twice as many groups at least halve the jump, which is positive
      have hpos : 0 < c.numHeaps / g := Nat.div_pos (not_lt.1 hle) hgroup
      have hhalf : c.numHeaps / c.groups ≤ c.numHeaps / g / 2 := by
        rw [Nat.div_div_eq_div_mul, Nat.mul_comm g]
        exact Nat.div_le_div_left htwo (by omega)
      omega
    · intro h
      rw [Nat.div_eq_of_lt h, Nat.div_eq_of_lt (by omega)]

theorem followsSchedule_iff_default : Config.default.FollowsSchedule ↔
    Config.default.numWorkersPerHeap = 1 ∨
      Config.default.numHeaps < Config.default.width / Config.default.numWorkersPerHeap :=
  followsSchedule_iff .default (by decide)

/-- Ten workers make five groups, so that twenty heaps take eight iterations;
    the macro counts eleven groups, and `main` makes two. -/
theorem not_followsSchedule : ¬ Config.default.FollowsSchedule := by
  rw [followsSchedule_iff_stride]
  decide

end SpecPriv.Simple
