/-
  `begin_iter`: what a worker does at the beginning of an iteration.

  Every iteration but the first waits until the first one is committed.  Then
  the worker takes in what earlier stages sent, stops if a misspeculation is
  recorded at or before its iteration, and, in the first stage, updates the
  predicted values and announces the iteration to the try-commit unit.

  The runtime's functions that `begin_iter` calls are parameters, functions of
  the whole state of the process (`Externals`): what they write, and what the
  other processes write to the shared state meanwhile, is left open.

  An iteration returns, or the process stops: it exits, or it waits for the
  first iteration when the fuel of the busy-wait loop runs out (`Halt`).
-/
import SpecPriv.Lib.Stopping
import SpecPriv.Orig.EndIter

namespace SpecPriv

/-- The fields of the PCB that record a misspeculation. -/
structure PCB where
  misspeculationHappened : Bool
  misspeculatedIteration : ℤ

/-- The state of a worker process: the worker, what it shares with the other
    processes, and the rest of it. -/
structure Process (am : AddressMap) (σ : Type) extends Worker am where
  pcb : PCB
  goodToGo : Bool
  rest : σ

/-- How a process stops. -/
inductive Halt (π : Type)
  /-- `exit` -/
  | exit (p : π)
  /-- still waiting -/
  | waiting (p : π)

/-- The parts of the runtime that `begin_iter` and `end_iter` rest on. -/
structure Externals (am : AddressMap) (σ : Type) extends Runtime where
  processReverseCommitQueue : Wid → Process am σ → Process am σ
  processIncomingPackets : Wid → ℕ → Process am σ → Process am σ
  updateLoopInvariants : Process am σ → Process am σ
  updateLinearPredictedValues : Process am σ → Process am σ
  /-- a `BOI` packet with the given address, value and size -/
  toTryCommit : Wid → ℕ → ℕ → ℕ → Process am σ → Process am σ
  resetProtection : Wid → Process am σ → Process am σ

variable {am : AddressMap} {σ : Type}

/-- `while (!(*good_to_go)) process_reverse_commit_queue(wid)`. -/
def waitGoodToGo (ext : Externals am σ) (wid : Wid) : ℕ → Process am σ →
    Except (Halt (Process am σ)) (Process am σ)
  | 0, p => .error (.waiting p)
  | fuel + 1, p =>
    if p.goodToGo then .ok p
    else waitGoodToGo ext wid fuel (ext.processReverseCommitQueue wid p)

/-- A misspeculation is recorded at or before the iteration of the worker. -/
def Process.misspeculated (p : Process am σ) : Bool :=
  p.pcb.misspeculationHappened && decide (p.pcb.misspeculatedIteration ≤ p.currentIter)

def checkMisspec (p : Process am σ) : Except (Halt (Process am σ)) (Process am σ) :=
  if p.pcb.misspeculationHappened then
    if p.pcb.misspeculatedIteration ≤ p.currentIter then .error (.exit p) else .ok p
  else .ok p

/-- `begin_iter` up to the call of `check_misspec`. -/
def arrive (ext : Externals am σ) (wid : Wid) (fuel : ℕ) (p : Process am σ) :
    Except (Halt (Process am σ)) (Process am σ) := do
  let iter := p.currentIter
  let p ← if iter ≠ 0 then waitGoodToGo ext wid fuel p else .ok p
  return ext.processIncomingPackets wid iter p

/-- `begin_iter` after the call of `check_misspec`, for iteration `iter`. -/
def proceed (ext : Externals am σ) (wid : Wid) (iter : ℕ) (p : Process am σ) : Process am σ :=
  let stage := ext.layout.getMyStage wid
  let p :=
    if iter ≠ 0 ∧ stage = 0 then
      let p := ext.updateLoopInvariants p
      let p := ext.updateLinearPredictedValues p
      ext.toTryCommit wid 0xDEADBEEF 0 0 p
    else p
  if runIteration ext.layout wid iter then ext.resetProtection wid p else p

def beginIter (ext : Externals am σ) (wid : Wid) (fuel : ℕ) (p : Process am σ) :
    Except (Halt (Process am σ)) (Process am σ) := do
  let iter := p.currentIter
  let p ← arrive ext wid fuel p
  let p ← checkMisspec p
  return proceed ext wid iter p

/-- `begin_iter` followed by `end_iter`. -/
def iteration (ext : Externals am σ) (wid : Wid) (fuel : ℕ) (p : Process am σ) :
    Except (Halt (Process am σ)) (Process am σ) := do
  let p ← beginIter ext wid fuel p
  return { p with toWorker := endIter ext.toRuntime wid p.toWorker }

/-! ## What it does -/

open Stopping

variable {ext : Externals am σ} {wid : Wid} {fuel : ℕ} {p : Process am σ}

theorem checkMisspec_eq (p : Process am σ) :
    checkMisspec p = if p.misspeculated then .error (.exit p) else .ok p := by
  unfold checkMisspec Process.misspeculated
  cases hm : p.pcb.misspeculationHappened
  · rfl
  · simp

/-- What is left of an iteration after the call of `check_misspec`. -/
def finish (ext : Externals am σ) (wid : Wid) (iter : ℕ) (p : Process am σ) : Process am σ :=
  let p := proceed ext wid iter p
  { p with toWorker := endIter ext.toRuntime wid p.toWorker }

/-- A worker that gets to `check_misspec` exits there with the state it has,
    or finishes the iteration. -/
theorem iteration_eq : iteration ext wid fuel p = arrive ext wid fuel p >>= fun q =>
    if q.misspeculated then .error (.exit q) else .ok (finish ext wid p.currentIter q) := by
  unfold iteration beginIter
  cases arrive ext wid fuel p with
  | error h => rfl
  | ok q =>
    simp only [bind_ok, checkMisspec_eq]
    cases q.misspeculated <;> rfl

end SpecPriv
