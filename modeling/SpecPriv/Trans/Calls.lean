/-
  The calls of `main` in the faithful translation.

  As in the simplified one, they depend on the constants alone: `main_eq`.
-/
import SpecPriv.Trans.Program

namespace SpecPriv.Trans

/-- A call of the loops of `main`, with the names of the callee's parameters. -/
inductive MainCall
  | beginIter (wid iter myStage isMyIter : ℕ)
  | busyWait (wid : ℕ) (myStage : ℤ)
  | endIter (wid iter : ℕ) (myStage : ℤ)
deriving DecidableEq

def MainCall.exec (c : Config) (env : Env) (fuel : ℕ) (st : State) :
    MainCall → Except State State
  | beginIter wid iter myStage isMyIter =>
    Trans.beginIter c env fuel wid iter myStage isMyIter st
  | busyWait wid myStage => Trans.busyWait wid myStage fuel st
  | endIter wid iter myStage => Trans.endIter c env fuel wid iter myStage st

/-- Make the calls one after the other. -/
def runMain (c : Config) (env : Env) (fuel : ℕ) (calls : List MainCall) (st : State) :
    Except State State :=
  calls.foldlM (MainCall.exec c env fuel) st

/-- The calls of an iteration. -/
def iterCalls (w iter : ℕ) (v : MainVars) : List MainCall :=
  .beginIter w iter v.myStage v.isMyIter ::
    ((if iter = 0 then [.busyWait w v.myStage] else []) ++ [.endIter w iter v.myStage])

/-- The calls of the loops of `main`. -/
def driverCalls (numWorkers numIters numWorkersPerHeap jump : ℕ) : List MainCall :=
  loopCalls numWorkers numIters numWorkersPerHeap jump iterCalls

def Config.mainCalls (c : Config) : List MainCall :=
  driverCalls c.numWorkers c.numIters c.numWorkersPerHeap c.jump

variable {c : Config} {env : Env} {fuel : ℕ}

theorem beginIter_mem_iterCalls {wid it myStage isMyIter w iter : ℕ} {v : MainVars} :
    .beginIter wid it myStage isMyIter ∈ iterCalls w iter v ↔
      wid = w ∧ it = iter ∧ myStage = v.myStage ∧ isMyIter = v.isMyIter := by
  unfold iterCalls
  split_ifs <;> simp

theorem endIter_mem_iterCalls {wid it w iter : ℕ} {myStage : ℤ} {v : MainVars} :
    .endIter wid it myStage ∈ iterCalls w iter v ↔
      wid = w ∧ it = iter ∧ myStage = v.myStage := by
  unfold iterCalls
  split_ifs <;> simp

theorem mainIter_eq (w iter : ℕ) (v : MainVars) (st : State) :
    mainIter c env fuel w iter v st =
      (iterCalls w iter v).foldlM (MainCall.exec c env fuel) st := by
  unfold mainIter iterCalls
  by_cases h0 : iter = 0 <;> simp [h0, MainCall.exec]

/-- **`main` makes the calls of `mainCalls`**, and begins and ends the
    invocation before and after. -/
theorem main_eq (c : Config) (env : Env) (fuel : ℕ) : main c env fuel =
    (runMain c env fuel c.mainCalls (beginInvocation c .init)).map (endInvocation c) := by
  have hloops (st : State) : mainLoops c.numWorkers c.numIters c.numWorkersPerHeap c.jump
      (mainIter c env fuel) st = runMain c env fuel c.mainCalls st :=
    mainLoops_eq mainIter_eq c.numWorkers c.numIters st
  unfold main
  dsimp only
  rw [hloops]
  cases runMain c env fuel c.mainCalls (beginInvocation c .init) <;> rfl

/-- `create_packet` stores the requested type in the packet it returns. -/
def Env.StoresType (env : Env) : Prop :=
  ∀ n wid type, (env.packet n wid type).type = type

/-- An environment whose `malloc` hands out one block after the other. -/
def Env.bump : Env where
  address n := BitVec.ofNat 64 (0x1000 + 32 * n)
  packet _ wid type := ⟨0#64, BitVec.ofNat 64 wid, 8, 0, type⟩

theorem Env.bump_storesType : Env.bump.StoresType := fun _ _ _ => rfl

/-- The invocation has begun, and calls were made, in any order and with any
    arguments. -/
def Reached (c : Config) (env : Env) (st : State) : Prop :=
  ∃ fuel calls, runMain c env fuel calls (beginInvocation c .init) = .ok st

end SpecPriv.Trans
