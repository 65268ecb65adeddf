/-
  The simplified translation, function by function.

  The order is that of the source files: `queue.c`, `packet.c`, `heap.c`,
  `invariant.c` and `loopevent_trans.c`.  The loops that drain a queue take
  fuel and fail without it; all other loops are counted.
-/
import SpecPriv.Lib.FirstFit
import SpecPriv.MainLoop
import SpecPriv.Simple.State

namespace SpecPriv.Simple

open Loop

/-! ## queue.c -/

/-- A queue with `queue_size` slots: one `mmap`, and every slot is cleared. -/
def initQueue (cell : Tally) (queueSize : ℕ) (st : State) : State :=
  let st := st.charge 200
  let st := st.store cell 0
  forLoop 0 queueSize 1 (fun _ st => st.charge 13) st

def initQueues (numWorkers numAuxWorkers : ℤ) (queueSize : ℕ) (st : State) : State :=
  let st := st.charge 200
  let st := forLoop 0 numWorkers.toNat 1 (fun i st =>
    let st := st.charge 200
    forLoop (i + 1) numWorkers.toNat 1 (fun j => initQueue (.ucvf i j) queueSize) st) st
  let st := st.charge 200
  let st := forLoop 0 numWorkers.toNat 1 (fun i st =>
    let st := st.charge 200
    forLoop 0 numAuxWorkers.toNat 1 (fun j => initQueue (.queue i j) queueSize) st) st
  let st := st.charge 200
  let st := forLoop 0 numAuxWorkers.toNat 1 (fun j => initQueue (.commit j) queueSize) st
  let st := st.charge 200
  forLoop 0 numWorkers.toNat 1 (fun j => initQueue (.reverse j) queueSize) st

def uninitQueues (numWorkers numAuxWorkers : ℤ) (st : State) : State :=
  let st := st.charge 500
  let st := forLoop 0 numWorkers.toNat 1 (fun i st =>
    let st := st.charge 500
    forLoop (i + 1) numWorkers.toNat 1 (fun _ st => st.charge 500) st) st
  let st := st.charge 500
  let st := forLoop 0 numWorkers.toNat 1 (fun _ st =>
    let st := st.charge 500
    forLoop 0 numAuxWorkers.toNat 1 (fun _ st => st.charge 500) st) st
  let st := st.charge 500
  let st := forLoop 0 numAuxWorkers.toNat 1 (fun _ st => st.charge 500) st
  let st := st.charge 500
  forLoop 0 numWorkers.toNat 1 (fun _ st => st.charge 500) st

inductive PacketType
  | normal
  | super
  | done
  | alloc

/-- The number of an enumerator. -/
def PacketType.code : PacketType → ℕ
  | normal => 0
  | super => 1
  | done => 2
  | alloc => 3

def queueConsume (packetQueue : Tally) (st : State) : PacketType × State :=
  let st := st.charge 6
  let n := st.tally packetQueue
  if n = 0 then (.done, st)
  else if Int.tmod n 4 = 0 then (.super, st.store packetQueue (n - 1))
  else if Int.tmod n 2 = 0 then (.normal, st.store packetQueue (n - 1))
  else (.alloc, st.store packetQueue (n - 1))

def queueProduce (packetQueue : Tally) (st : State) : State :=
  let st := st.charge 6
  st.store packetQueue (st.tally packetQueue + 1)

/-! ## packet.c -/

def initPackets (nAllWorkers : ℤ) (st : State) : State :=
  let st := forLoop 0 nAllWorkers.toNat 1 (fun _ st => st.charge 200) st
  forLoop 0 nAllWorkers.toNat 1 (fun _ st => st.charge 200) st

def uninitPackets (nAllWorkers : ℤ) (st : State) : State :=
  let st := forLoop 0 nAllWorkers.toNat 1 (fun _ st => st.charge 500) st
  forLoop 0 nAllWorkers.toNat 1 (fun _ st => st.charge 500) st

/-- The loop of the three functions below: the first index from `idx` on, at
    most `n` further, whose test fails. -/
def searchAvailable (full : ℕ → Bool) : ℕ → ℕ → State → ℕ × State
  | 0, idx, st => (idx, st)
  | n + 1, idx, st =>
    if full idx then searchAvailable full n (idx + 1) (st.charge 3) else (idx, st)

/-- The three functions below: the index of a queue with space; the first
    queue loses two packets if there is none. -/
def getAvailable (full : ℕ → Bool) (first : Tally) (size : ℤ) (st : State) : ℕ × State :=
  let st := st.charge 1200
  let r := searchAvailable full size.toNat 0 st
  if (r.1 : ℤ) = size then (0, r.2.store first (r.2.tally first - 2)) else r

def getAvailableCommitProcessPacket (numAuxWorkers : ℤ) (st : State) : ℕ × State :=
  getAvailable (fun idx => st.tally (.commit idx) ≥ queueLimit) (.commit 0) numAuxWorkers st

def getAvailableUcvfPacket (id size : ℤ) (st : State) : ℕ × State :=
  getAvailable (fun idx => st.tally (.ucvf id idx) ≥ queueLimit) (.ucvf id 0) size st

/-- The address of `queues[idx]`. -/
def Config.queuesRow (c : Config) (idx : ℕ) : ℕ := c.queuesAddr + idx * (c.numAuxWorkers * 4)

/-- The test of this search is about the address of a row, not about a tally. -/
def getAvailablePacket (c : Config) (id size : ℤ) (st : State) : ℕ × State :=
  getAvailable (fun idx => (c.queuesRow idx : ℤ) ≥ queueLimit) (.queue id 0) size st

/-! ## heap.c -/

def initHeaps (c : Config) (globalSize heapSize stackSize : ℤ) (st : State) : State :=
  let st := forLoop 0 c.numHeaps 1
    (fun i st => { st with shadowHeaps := Function.update st.shadowHeaps i heapSize }) st
  let st := forLoop 0 c.numGlobals 1
    (fun i st => { st with shadowGlobals := Function.update st.shadowGlobals i globalSize }) st
  forLoop 0 c.numStacks 1
    (fun i st => { st with shadowStacks := Function.update st.shadowStacks i stackSize }) st

def updateVerMalloc (st : State) : State := st.charge 200

def updateVerSeparationMalloc (st : State) : State := st.charge 400

def updatePage (pageSize : ℕ) (st : State) : State :=
  forLoop 0 pageSize 16 (fun _ st => st.charge 56) st

def setShadowHeaps (numHeaps : ℕ) (st : State) : State :=
  forLoop 0 numHeaps 1 (fun _ st => st.charge 1) st

/-! ## invariant.c -/

/-- Store an entry of a prediction buffer. -/
def setEntry (buf : ℕ → ℕ → ℤ) (i j : ℕ) (v : ℤ) : ℕ → ℕ → ℤ :=
  Function.update buf i (Function.update (buf i) j v)

def State.setLoopInvariantBuffer (i j : ℕ) (v : ℤ) (st : State) : State :=
  { st with prediction := { st.prediction with
      loopInvariantBuffer := setEntry st.prediction.loopInvariantBuffer i j v } }

def State.setLinearPredictors (i j : ℕ) (v : ℤ) (st : State) : State :=
  { st with prediction := { st.prediction with
      linearPredictors := setEntry st.prediction.linearPredictors i j v } }

def initBuffers (numLoopInvariantLoads numContexts : ℤ) (st : State) : State :=
  forLoop 0 numLoopInvariantLoads.toNat 1 (fun i =>
    forLoop 0 numContexts.toNat 1 fun j st =>
      let st := st.charge 400
      let st := st.setLoopInvariantBuffer i j 0
      st.setLinearPredictors i j 0) st

def uninitBuffers (numLoopInvariantLoads numContexts : ℤ) (st : State) : State :=
  forLoop 0 numLoopInvariantLoads.toNat 1 (fun _ =>
    forLoop 0 numContexts.toNat 1 fun _ st => st.charge 1000) st

def updateLoopInvariants (numLoopInvariantLoads numContexts : ℤ) (st : State) : State :=
  forLoop 0 numLoopInvariantLoads.toNat 1 (fun i =>
    forLoop 0 numContexts.toNat 1 fun j st =>
      let st := st.charge 4
      st.setLoopInvariantBuffer i j
        (Int.tmod (st.prediction.loopInvariantBuffer i j + i) 8)) st

def updateLinearPredictedValues (numLoopInvariantLoads numContexts : ℤ) (st : State) : State :=
  forLoop 0 numLoopInvariantLoads.toNat 1 (fun i =>
    forLoop 0 numContexts.toNat 1 fun j st =>
      let st := st.charge 4
      st.setLinearPredictors i j (Int.tmod (st.prediction.linearPredictors i j + j) 8)) st

/-- The loops of the two functions below: the number of non-zero entries. -/
def countEntries (buf : ℕ → ℕ → ℤ) (numLoopInvariantLoads numContexts : ℤ) (st : State) :
    ℤ × State :=
  forLoop 0 numLoopInvariantLoads.toNat 1 (fun i =>
    forLoop 0 numContexts.toNat 1 fun j r =>
      let st := r.2.charge 4
      let st := forLoop 0 (buf i j).toNat 1 (fun _ st => st.charge 13) st
      (if buf i j ≠ 0 then r.1 + 1 else r.1, st)) (0, st)

def updateShadowLoopInvariants (c : Config) (numLoopInvariantLoads numContexts : ℤ) (st : State) :
    ℤ × State :=
  let r := countEntries st.prediction.loopInvariantBuffer numLoopInvariantLoads numContexts st
  (if r.1 > c.maxLoads ∨ r.1 ≤ 0 then c.maxLoads else r.1, r.2)

def updateShadowLinearPredictedValues (c : Config) (numLoopInvariantLoads numContexts : ℤ)
    (st : State) : ℤ × State :=
  let r := countEntries st.prediction.linearPredictors numLoopInvariantLoads numContexts st
  (if r.1 > c.maxContexts ∨ r.1 ≤ 0 then c.maxContexts else r.1, r.2)

/-! ## loopevent_trans.c -/

def beginInvocation (c : Config) (st : State) : State :=
  let st := initQueues c.numWorkers c.numAuxWorkers queueSize st
  let st := initBuffers c.maxLoads c.maxContexts st
  let st := initPackets c.numAllWorkers st
  let st := initHeaps c c.maxGlobalSize c.maxHeapSize c.maxStackSize st
  st.charge 200

/-- One round of the receive loop, and whether it was the last one. -/
def receivePacket (queue : Tally) (wid : ℤ) (st : State) : Bool × State :=
  let r := queueConsume queue st
  let st := r.2
  match r.1 with
  | .normal =>
    let st := (queueConsume queue st).2
    let st := st.charge 1
    (false, st.charge 1)
  | .super =>
    if st.numRoPages > 0 then
      let st := { st with numRoPages := st.numRoPages - 1 }
      (false, st.charge 1)
    else
      let st := (queueConsume queue st).2
      (false, updatePage pageSize st)
  | .done => (true, st)
  | .alloc =>
    (false, forLoop 0 (pageSize / sizeofVerMallocInstance) 1 (fun _ st =>
      if st.isVer wid ≠ 0 then updateVerMalloc st else updateVerSeparationMalloc st) st)

/-- The receive loop, with fuel. -/
def receiveAll (queue : Tally) (wid : ℤ) : ℕ → State → Option State
  | 0, _ => none
  | fuel + 1, st =>
    let r := receivePacket queue wid st
    if r.1 then some r.2 else receiveAll queue wid fuel r.2

/-- The block of `begin_iter` that updates the predictions. -/
def updatePredictions (c : Config) (wid : ℤ) (st : State) : State :=
  let st := updateLoopInvariants st.prediction.numLoopInvariantLoads st.prediction.numContexts st
  let st := updateLinearPredictedValues st.prediction.numLoopInvariantLoads
    st.prediction.numContexts st
  forLoop 0 c.numAuxWorkers 1 (fun i => queueProduce (.queue wid i)) st

def beginIter (c : Config) (fuel : ℕ) (wid iter myStage isMyIter : ℤ) (st : State) :
    Option State := do
  let st ← forLoop? 0 myStage.toNat 1 (fun i =>
    let source := c.modNumWorkers (wid + i)
    receiveAll (.ucvf source wid) wid fuel) st
  let st := if iter ≠ 0 ∧ myStage = 0 then updatePredictions c wid st else st
  some (if isMyIter ≠ 0 then setShadowHeaps c.numHeaps st else st)

/-- The loop of `busy_wait`, with fuel. -/
def busyWait (wid : ℤ) : ℕ → State → Option State
  | 0, _ => none
  | fuel + 1, st =>
    if st.tally (.reverse wid) > 0 then
      let r := queueConsume (.reverse wid) st
      busyWait wid fuel
        (if r.1.code % 2 = 0 then updateVerMalloc r.2 else updateVerSeparationMalloc r.2)
    else some st

/-- The value of an `unsigned`. -/
def asUnsigned (x : ℤ) : ℤ := x % 2 ^ 32

/-- The `int` with the bits of an `unsigned`. -/
def asInt (x : ℤ) : ℤ := Int.bmod x (2 ^ 32)

/-- `(wid+i) % NUM_WORKERS` in `forward_packet`, where `i` is unsigned. -/
def Config.forwardSource (c : Config) (wid : ℤ) (i : ℕ) : ℤ :=
  asInt (asUnsigned (wid + i) % 12 - c.numAuxWorkers)

/-- The body of the loop of `forward_packet`. -/
def forwardToStage (c : Config) (wid isMyIter : ℤ) (i : ℕ) (st : State) : State :=
  if isMyIter = 0 then
    let r := getAvailableCommitProcessPacket c.numAuxWorkers st
    queueProduce (.commit r.1) r.2
  else
    let source := c.forwardSource wid i
    let r := getAvailableUcvfPacket source c.numWorkers st
    let st := queueProduce (.ucvf source r.1) r.2
    st.charge 300

def forwardPacket (c : Config) (wid _shadowSize myStage isMyIter : ℤ) (st : State) : State :=
  let st := forLoop (asUnsigned (myStage + 1)).toNat c.numStages 1
    (forwardToStage c wid isMyIter) st
  let r := getAvailablePacket c wid c.numAuxWorkers st
  queueProduce (.queue wid r.1) r.2

def forwardPair (c : Config) (wid shadowSize myStage isMyIter : ℤ) (st : State) : State :=
  let st := forwardPacket c wid shadowSize myStage isMyIter st
  let st := forwardPacket c wid shadowSize myStage isMyIter st
  forLoop 0 pageSize 8 (fun _ st =>
    let st := forwardPacket c wid 8 myStage isMyIter st
    forwardPacket c wid 8 myStage isMyIter st) st

/-- The three loops of `end_iter`. -/
def forwardPages (c : Config) (wid myStage isMyIter : ℤ) (st : State) : State :=
  let st := forLoop 0 c.numGlobals 1
    (fun i st => forwardPair c wid (st.shadowGlobals i) myStage isMyIter st) st
  let st := forLoop 0 c.numHeaps 1
    (fun i st => forwardPair c wid (st.shadowHeaps i) myStage isMyIter st) st
  forLoop 0 c.numStacks 1
    (fun i st => forwardPair c wid (st.shadowStacks i) myStage isMyIter st) st

def endIter (c : Config) (wid myStage isMyIter : ℤ) (st : State) : State :=
  let st := if isMyIter ≠ 0 then
      let r := updateShadowLoopInvariants c st.prediction.numLoopInvariantLoads
        st.prediction.numContexts st
      let st := { r.2 with prediction := { r.2.prediction with numLoopInvariantLoads := r.1 } }
      let r := updateShadowLinearPredictedValues c st.prediction.numLoopInvariantLoads
        st.prediction.numContexts st
      { r.2 with prediction := { r.2.prediction with numContexts := r.1 } }
    else st
  forwardPages c wid myStage isMyIter st

def endInvocation (c : Config) (st : State) : State :=
  let st := uninitQueues c.numWorkers c.numAuxWorkers st
  let st := uninitBuffers c.maxLoads c.maxContexts st
  let st := uninitPackets c.numAllWorkers st
  st.charge 500

/-- `NUM_STAGES/(NUM_WORKERS/NUM_WORKERS_PER_HEAP)`. -/
def Config.jump (c : Config) : ℤ := Int.tdiv c.numStages c.numWorkersDivPerHeap

/-- The body of the inner loop of `main`, after the assignments to its variables.
    The call of `end_iter` passes the iteration for the stage, and the stage for
    the ownership flag. -/
def mainIter (c : Config) (fuel : ℕ) (w iter : ℕ) (v : MainVars) (st : State) :
    Option State := do
  let st ← beginIter c fuel w iter v.myStage v.isMyIter st
  let st ← if iter = 0 then busyWait w fuel st else some st
  some (endIter c w iter v.myStage st)

def main (c : Config) (fuel : ℕ) : Option State := do
  let st := beginInvocation c (.init c)
  let st ← mainLoops c.numWorkers.toNat c.numIters.toNat c.numWorkersPerHeap c.jump.toNat
    (mainIter c fuel) st
  some (endInvocation c st)

end SpecPriv.Simple
