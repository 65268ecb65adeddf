/-
  The state of the simplified translation.

  The simplified translation replaces every queue by the number of packets in
  it, its tally, and adds up what the operations would cost.  `Config` holds
  the changeable constants; the macros are expanded as the preprocessor does,
  as text, so `x % NUM_WORKERS` is `x % 12 - NUM_AUX_WORKERS`.

  The tables are total maps from indices to tallies.  `trace` records what
  the program does besides computing: charges to `__cost`, and stores to
  tallies, latest first.
-/
import Mathlib.Algebra.BigOperators.Intervals
import SpecPriv.Lib.Counter
import SpecPriv.Lib.Loop

namespace SpecPriv.Simple

open Loop

/-! ## Constants -/

/-- The changeable constants, and the address of the table `queues`, which the
    program compares with a number. -/
structure Config where
  maxLoads : ℕ
  maxContexts : ℕ
  numAuxWorkers : ℕ
  numHeaps : ℕ
  numGlobals : ℕ
  numStacks : ℕ
  maxGlobalSize : ℕ
  maxStackSize : ℕ
  maxHeapSize : ℕ
  numWorkersPerHeap : ℕ
  queuesAddr : ℕ
  /-- there is a worker -/
  aux_lt : numAuxWorkers < 12
  perHeap_pos : 0 < numWorkersPerHeap
  heaps_lt : numHeaps < 2 ^ 31
  /-- global objects lie above the numbers they are compared with -/
  queuesAddr_gt : 16 < queuesAddr

/-- The constants as they are in the source. -/
def Config.default : Config where
  maxLoads := 12
  maxContexts := 12
  numAuxWorkers := 2
  numHeaps := 20
  numGlobals := 20
  numStacks := 20
  maxGlobalSize := 0x1000
  maxStackSize := 0x1000
  maxHeapSize := 0x1000
  numWorkersPerHeap := 2
  queuesAddr := 0x4040
  aux_lt := by decide
  perHeap_pos := by decide
  heaps_lt := by decide
  queuesAddr_gt := by decide

def queueSize : ℕ := 8192 * 2

def pageSize : ℕ := 4 * 1024

/-- `QUEUE_SIZE/(PAGE_SIZE/4)`. -/
def queueLimit : ℤ := 8192 * 2 / ((4 * 1024) / 4)

/-- `sizeof(VerMallocInstance)`. -/
def sizeofVerMallocInstance : ℕ := 16

namespace Config
variable (c : Config)

def numStages : ℕ := c.numHeaps

def numWorkers : ℤ := 12 - c.numAuxWorkers

/-- `NUM_WORKERS/NUM_WORKERS_PER_HEAP`. -/
def numWorkersDivPerHeap : ℤ := 12 - Int.tdiv c.numAuxWorkers c.numWorkersPerHeap

def numIters : ℤ := Int.tdiv c.numHeaps c.numWorkersDivPerHeap * c.numWorkersPerHeap

/-- `x % NUM_WORKERS`. -/
def modNumWorkers (x : ℤ) : ℤ := Int.tmod x 12 - c.numAuxWorkers

/-- `NUM_AUX_WORKERS+NUM_WORKERS`. -/
def numAllWorkers : ℤ := c.numAuxWorkers + 12 - c.numAuxWorkers

end Config

/-! ## States -/

/-- The tallies of the four tables. -/
inductive Tally
  | ucvf (row col : ℤ)
  | queue (row col : ℤ)
  | commit (idx : ℤ)
  | reverse (idx : ℤ)
deriving DecidableEq

inductive Event
  | charge (n : ℕ)
  | store (cell : Tally) (value : ℤ)

/-- `loop_invariant_buffer`, `linear_predictors`, and the sizes in use. -/
structure Prediction where
  numLoopInvariantLoads : ℤ
  numContexts : ℤ
  loopInvariantBuffer : ℕ → ℕ → ℤ
  linearPredictors : ℕ → ℕ → ℤ

structure State where
  tally : Tally → ℤ
  numRoPages : ℤ
  prediction : Prediction
  /-- `heaps[..].is_ver` -/
  isVer : ℤ → ℤ
  /-- the sizes of the shadow globals, heaps and stacks -/
  shadowGlobals : ℕ → ℤ
  shadowHeaps : ℕ → ℤ
  shadowStacks : ℕ → ℤ
  trace : List Event

/-- The state as the program starts. -/
def State.init (c : Config) : State where
  tally _ := 0
  numRoPages := c.numHeaps / 4
  prediction := ⟨c.maxLoads, c.maxContexts, fun _ _ => 0, fun _ _ => 0⟩
  isVer _ := 0
  shadowGlobals _ := 0
  shadowHeaps _ := 0
  shadowStacks _ := 0
  trace := []

namespace State

/-- `__cost += n`. -/
def charge (n : ℕ) (st : State) : State := { st with trace := .charge n :: st.trace }

/-- Several charges, the last one first. -/
def chargeAll (cs : List ℕ) (st : State) : State :=
  { st with trace := cs.map .charge ++ st.trace }

/-- Store a tally. -/
def store (cell : Tally) (v : ℤ) (st : State) : State :=
  { st with tally := Function.update st.tally cell v, trace := .store cell v :: st.trace }

end State

/-- The charges of a trace, latest first. -/
def charges (trace : List Event) : List ℕ :=
  trace.filterMap fun
    | .charge n => some n
    | .store _ _ => none

/-- The stores of a trace, latest first. -/
def stores (trace : List Event) : List (Tally × ℤ) :=
  trace.filterMap fun
    | .charge _ => none
    | .store cell v => some (cell, v)

/-- The signed 32-bit counter `__cost`. -/
def State.cost (st : State) : BitVec 32 := Counter.wrapped 32 (charges st.trace)

/-- The sum of all charges so far. -/
def State.total (st : State) : ℕ := (charges st.trace).sum

namespace State

variable (n : ℕ) (cs : List ℕ) (cell : Tally) (v : ℤ) (st : State)

@[simp] theorem charge_tally : (st.charge n).tally = st.tally := rfl

@[simp] theorem charge_numRoPages : (st.charge n).numRoPages = st.numRoPages := rfl

@[simp] theorem charge_prediction : (st.charge n).prediction = st.prediction := rfl

@[simp] theorem charge_isVer : (st.charge n).isVer = st.isVer := rfl

@[simp] theorem charge_total : (st.charge n).total = st.total + n := by
  simp [total, charge, charges, Nat.add_comm]

@[simp] theorem charge_stores : stores (st.charge n).trace = stores st.trace := rfl

@[simp] theorem chargeAll_tally : (st.chargeAll cs).tally = st.tally := rfl

@[simp] theorem chargeAll_numRoPages : (st.chargeAll cs).numRoPages = st.numRoPages := rfl

@[simp] theorem chargeAll_prediction : (st.chargeAll cs).prediction = st.prediction := rfl

@[simp] theorem chargeAll_isVer : (st.chargeAll cs).isVer = st.isVer := rfl

@[simp] theorem chargeAll_stores : stores (st.chargeAll cs).trace = stores st.trace := by
  simp [stores, chargeAll, List.filterMap_map]

@[simp] theorem chargeAll_total : (st.chargeAll cs).total = st.total + cs.sum := by
  simp [total, chargeAll, charges, List.filterMap_map, Nat.add_comm]

theorem charge_chargeAll : (st.chargeAll cs).charge n = st.chargeAll (n :: cs) := rfl

@[simp] theorem store_tally : (st.store cell v).tally = Function.update st.tally cell v := rfl

@[simp] theorem store_numRoPages : (st.store cell v).numRoPages = st.numRoPages := rfl

@[simp] theorem store_prediction : (st.store cell v).prediction = st.prediction := rfl

@[simp] theorem store_isVer : (st.store cell v).isVer = st.isVer := rfl

@[simp] theorem store_stores :
    stores (st.store cell v).trace = (cell, v) :: stores st.trace := rfl

@[simp] theorem store_total : (st.store cell v).total = st.total := rfl

end State

/-- A loop that only charges. -/
theorem forLoop_charge (start stop step n : ℕ) (st : State) :
    forLoop start stop step (fun _ st => st.charge n) st =
      st.chargeAll (List.replicate (rounds start stop step) n) := by
  rw [forLoop]
  generalize rounds start stop step = r
  induction r with
  | zero => rfl
  | succ r ih =>
    rw [forN, ih, State.charge_chargeAll]
    rfl

end SpecPriv.Simple
