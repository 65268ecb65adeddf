/-
  The faithful translation, function by function.

  The order is that of the source files: `queue.c`, `packet.c`, `heap.c` and
  `loopevent_trans.c`.  The searches for a packet and the loops that empty a
  queue take fuel; a function that runs out of it, reads or writes through a
  null pointer, or leaves the ring of a queue, stops, with the state it has
  reached (`Stopping`).

  Functions whose bodies only stand for a cost have no effect here.
-/
import SpecPriv.Lib.Stopping
import SpecPriv.MainLoop
import SpecPriv.Trans.State

namespace SpecPriv.Trans

open Loop

/-! ## queue.c -/

/-- `queue->data[i] = SW_QUEUE_NULL`. -/
def clearSlot (queue i : ℕ) (st : State) : State :=
  let q := st.queue queue
  (st.setQueue queue { q with data := q.data.setIfInBounds i swQueueNull }).record (.clear queue i)

def swQueueReset (queue : ℕ) (st : State) : State :=
  let st := st.setQueue queue { st.queue queue with head := 0, tail := 0, finished := 0 }
  forLoop 0 queueSize 1 (clearSlot queue) st

/-- A new queue, its pointer being stored in word `i` of region `a`. -/
def swQueueCreate (a i : ℕ) (st : State) : State :=
  let st := st.mmap a i sizeofQueue
  swQueueReset (st.heap.word a i) st

def swQueueFree (queue : ℕ) (st : State) : State := st.munmap queue sizeofQueue

/-- `__sw_queue_produce` on the queue in a place of the tables. -/
def swQueueProduce (e : Entry) (value : Cell64) (st : State) : Except State State :=
  let queue := e.ptr st.heap
  let st := st.record (.produce e value)
  if queue = 0 then .error st
  else
    match SpecPriv.swQueueProduce (st.queue queue) value with
    | some q => .ok (st.setQueue queue q)
    | none => .error st

/-- `__sw_queue_empty` on the queue in a place of the tables. -/
def swQueueEmpty (e : Entry) (st : State) : Except State Bool :=
  let queue := e.ptr st.heap
  if queue = 0 then .error st
  else
    match SpecPriv.swQueueEmpty (st.queue queue) with
    | some empty => .ok (empty ≠ 0)
    | none => .error st

/-- There is nothing to consume in a place of the tables. -/
def nothingAt (e : Entry) (st : State) : Bool :=
  e.ptr st.heap = 0 ∨ SpecPriv.swQueueEmpty (st.queue (e.ptr st.heap)) ≠ some 0

/-- `__sw_queue_consume` on the queue in a place of the tables. -/
def swQueueConsume (e : Entry) (st : State) : Except State (Cell64 × State) :=
  let queue := e.ptr st.heap
  let st := st.record (.consume e (nothingAt e st))
  if queue = 0 then .error st
  else
    match SpecPriv.swQueueConsume (st.queue queue) with
    | some (value, q) => .ok (value, st.setQueue queue q)
    | none => .error st

def initQueues (nWorkers nAuxWorkers : ℕ) (st : State) : State :=
  let st := st.mmap globals Global.ucvfQueues.index (sizeofPtr * nWorkers)
  let st := forLoop 0 nWorkers 1 (fun i st =>
    let st := st.mmap (st.global .ucvfQueues) i (sizeofPtr * nWorkers)
    forLoop (i + 1) nWorkers 1 (fun j st =>
      swQueueCreate (st.heap.word (st.global .ucvfQueues) i) j st) st) st
  let st := st.mmap globals Global.queues.index (sizeofPtr * nWorkers)
  let st := forLoop 0 nWorkers 1 (fun i st =>
    let st := st.mmap (st.global .queues) i (sizeofPtr * nAuxWorkers)
    forLoop 0 nAuxWorkers 1 (fun j st =>
      swQueueCreate (st.heap.word (st.global .queues) i) j st) st) st
  let st := st.mmap globals Global.commitQueues.index (sizeofPtr * nAuxWorkers)
  let st := forLoop 0 nAuxWorkers 1 (fun i st =>
    swQueueCreate (st.global .commitQueues) i st) st
  let st := st.mmap globals Global.reverseCommitQueues.index (sizeofPtr * nWorkers)
  forLoop 0 nWorkers 1 (fun i st => swQueueCreate (st.global .reverseCommitQueues) i st) st

/-- Release the queue in word `j` of a row, if there is one. -/
def freeIfCreated (table : Global) (i j : ℕ) (st : State) : State :=
  let r := st.load (st.global table) i
  let r := r.2.load r.1 j
  if r.1 ≠ 0 then swQueueFree r.1 r.2 else r.2

/-- Release the region in word `i` of a table. -/
def unmapAt (table : Global) (i length : ℕ) (st : State) : State :=
  let r := st.load (st.global table) i
  r.2.munmap r.1 length

def finiQueues (nWorkers nAuxWorkers : ℕ) (st : State) : State :=
  let st := forLoop 0 nWorkers 1 (fun i st =>
    let st := forLoop 0 nWorkers 1 (freeIfCreated .ucvfQueues i) st
    unmapAt .ucvfQueues i (sizeofPtr * nWorkers) st) st
  let st := st.munmap (st.global .ucvfQueues) (sizeofPtr * nWorkers)
  let st := forLoop 0 nWorkers 1 (fun i st =>
    let st := forLoop 0 nAuxWorkers 1 (freeIfCreated .queues i) st
    unmapAt .queues i (sizeofPtr * nAuxWorkers) st) st
  let st := st.munmap (st.global .queues) (sizeofPtr * nWorkers)
  let st := forLoop 0 nAuxWorkers 1 (fun i => unmapAt .commitQueues i sizeofQueue) st
  let st := st.munmap (st.global .commitQueues) (sizeofPtr * nAuxWorkers)
  let st := forLoop 0 nWorkers 1 (fun i => unmapAt .reverseCommitQueues i sizeofQueue) st
  st.munmap (st.global .reverseCommitQueues) (sizeofPtr * nWorkers)

/-! ## packet.c -/

def initPackets (nAllWorkers : ℕ) (st : State) : State :=
  let table := sizeofPtr * nAllWorkers
  let st := st.mmap globals Global.packetBegins.index table
  let st := st.mmap globals Global.packetEnds.index table
  let st := st.mmap globals Global.packetNexts.index table
  let st := forLoop 0 nAllWorkers 1 (fun i st =>
    let st := st.mmap (st.global .packetBegins) i (sizeofPacket * packetPoolSize)
    { st with pool := Function.update st.pool i .mapped }) st
  let st := st.mmap globals Global.commitProcessPacketBegin.index (sizeofPacket * packetPoolSize)
  let st := { st with commitPool := .mapped }
  let st := st.mmap globals Global.packetChunkBegins.index table
  let st := st.mmap globals Global.packetChunkEnds.index table
  let st := st.mmap globals Global.packetChunkNexts.index table
  forLoop 0 nAllWorkers 1 (fun i st =>
    st.mmap (st.global .packetChunkBegins) i (sizeofPacketChunk * packetPoolSize)) st

/-- A new packet; its content is what the environment says. -/
def createPacket (env : Env) (wid : ℕ) (type : ℤ) (st : State) : Cell64 × State :=
  let p := env.address st.created
  (p, { st with
    packet := Function.update st.packet p (env.packet st.created wid type)
    created := st.created + 1 })

def finiPackets (nAllWorkers : ℕ) (st : State) : State :=
  let table := sizeofPtr * nAllWorkers
  let st := forLoop 0 nAllWorkers 1 (fun i st =>
    let st := unmapAt .packetBegins i (sizeofPacket * packetPoolSize) st
    unmapAt .packetChunkBegins i (sizeofPacket * packetPoolSize) st) st
  let st := st.munmap (st.global .packetBegins) table
  let st := st.munmap (st.global .packetEnds) table
  let st := st.munmap (st.global .packetNexts) table
  let st := st.munmap (st.global .packetChunkBegins) table
  let st := st.munmap (st.global .packetChunkEnds) table
  st.munmap (st.global .packetChunkNexts) table

/-- The offset after `next`, back to the start of the pool at its end. -/
def Pool.succ (next : ℕ) : ℕ := if next + 1 ≥ packetPoolSize then 0 else next + 1

/-- The loop of the two functions below, with fuel. -/
def Pool.search (ptr : ℕ → Cell64) : ℕ → ℕ → Option ℕ
  | 0, _ => none
  | fuel + 1, next => if ptr next = 0#64 then some next else Pool.search ptr fuel (Pool.succ next)

/-- The two functions below: an available packet of a pool. -/
def Pool.getAvailable (fuel : ℕ) (pool : Pool) : Option (ℕ × Pool) := do
  let next ← Pool.search pool.ptr fuel pool.next
  some (next, { pool with next := Pool.succ next })

def getAvailablePacket (fuel wid : ℕ) (st : State) : Except State State :=
  match (st.pool wid).getAvailable fuel with
  | some (_, pool) => .ok { st with pool := Function.update st.pool wid pool }
  | none => .error st

def getAvailableCommitProcessPacket (fuel : ℕ) (st : State) : Except State State :=
  match st.commitPool.getAvailable fuel with
  | some (_, pool) => .ok { st with commitPool := pool }
  | none => .error st

/-! ## heap.c -/

def initHeaps (c : Config) (globalSize heapSize stackSize : ℤ) (st : State) : State :=
  let st := forLoop 0 c.numHeaps 1
    (fun i st => { st with shadowHeaps := Function.update st.shadowHeaps i heapSize }) st
  let st := forLoop 0 c.numGlobals 1
    (fun i st => { st with shadowGlobals := Function.update st.shadowGlobals i globalSize }) st
  forLoop 0 c.numStacks 1
    (fun i st => { st with shadowStacks := Function.update st.shadowStacks i stackSize }) st

/-! ## loopevent_trans.c -/

/-- The numbers of the types of packets. -/
def typeNormal : ℤ := 0
def typeSuper : ℤ := 1
def typeDone : ℤ := 2

/-- `CHECK_RO_PAGE`, `REGULAR` and `SEPARATION`. -/
def checkRoPage : ℤ := 2
def regular : ℤ := 0
def separation : ℤ := 1

def beginInvocation (c : Config) (st : State) : State :=
  let st := initPackets c.numAllWorkers st
  let st := initQueues c.numWorkers c.numAuxWorkers st
  let st := initHeaps c c.maxGlobalSize c.maxHeapSize c.maxStackSize st
  st.mmap globals Global.pcb.index sizeofPcb

/-- Consume a packet in order to read it; the program stops at null. -/
def consumePacket (e : Entry) (st : State) : Except State (Cell64 × State) := do
  let (p, st) ← swQueueConsume e st
  if p = swQueueNull then .error st else .ok (p, st)

/-- `p->ptr = NULL`. -/
def clearPtr (p : Cell64) (st : State) : State :=
  { st with packet := Function.update st.packet p { st.packet p with ptr := 0#64 } }

/-- Consume the second packet of a pair, if the first one announces it. -/
def consumeShadow (e : Entry) (p : Packet) (st : State) : Except State State :=
  if p.type = typeNormal then (swQueueConsume e st).map Prod.snd
  else if p.type = typeSuper ∧ p.isWrite ≠ checkRoPage then (swQueueConsume e st).map Prod.snd
  else .ok st

/-- One round of the receive loop, and whether it was the last one.  What it does
    with pages and allocations only stands for a cost. -/
def receivePacket (e : Entry) (st : State) : Except State (Bool × State) := do
  let (p, st) ← consumePacket e st
  let packet := st.packet p
  let st ← consumeShadow e packet st
  .ok (packet.type = typeDone, clearPtr p st)

/-- The receive loop, with fuel. -/
def receiveAll (e : Entry) : ℕ → State → Except State State
  | 0, st => .error st
  | fuel + 1, st => do
    let (done, st) ← receivePacket e st
    if done then .ok st else receiveAll e fuel st

/-- A new packet is produced. -/
def sendPacket (env : Env) (wid : ℕ) (type : ℤ) (e : Entry) (st : State) :
    Except State State :=
  let (p, st) := createPacket env wid type st
  swQueueProduce e p st

/-- `isMyIter` is whether the heaps are reset, which only stands for a cost. -/
def beginIter (c : Config) (env : Env) (fuel wid iter myStage _isMyIter : ℕ) (st : State) :
    Except State State := do
  let sourceWid := 0
  let st ← Stopping.forLoop 0 myStage 1 (fun _ => receiveAll (.ucvf sourceWid wid) fuel) st
  if iter ≠ 0 ∧ myStage = 0 then
    Stopping.forLoop 0 c.numAuxWorkers 1 (fun i => sendPacket env wid (-1) (.queue wid i)) st
  else .ok st

/-- The loop of `busy_wait`, with fuel.  What it does with a packet, and with the
    stage, only stands for a cost. -/
def busyWait (wid : ℕ) (_myStage : ℤ) : ℕ → State → Except State State
  | 0, st => .error st
  | fuel + 1, st => do
    let empty ← swQueueEmpty (.reverse wid) st
    if empty then .ok st
    else do
      let (p, st) ← consumePacket (.reverse wid) st
      let packet := st.packet p
      if packet.isWrite = regular ∨ packet.isWrite = separation then
        busyWait wid _myStage fuel st
      else .error st

/-- The value of an `unsigned`. -/
def asUnsigned (x : ℤ) : ℕ := (x % 2 ^ 32).toNat

/-- The body of the loop of `forward_packet`. -/
def forwardToStage (c : Config) (env : Env) (fuel wid : ℕ) (myStage : ℤ) (i : ℕ) (st : State) :
    Except State State := do
  let st ← if wid = c.firstWidOfStage myStage then getAvailableCommitProcessPacket fuel st
    else getAvailablePacket fuel wid st
  sendPacket env wid typeSuper (.ucvf wid i) st

def forwardPacket (c : Config) (env : Env) (fuel wid : ℕ) (_shadowSize myStage : ℤ) (st : State) :
    Except State State := do
  let st ← Stopping.forLoop (asUnsigned (myStage + 1)) c.numStages 1
    (forwardToStage c env fuel wid myStage) st
  sendPacket env wid typeSuper (.queue wid wid) st

def forwardPair (c : Config) (env : Env) (fuel wid : ℕ) (shadowSize myStage : ℤ) (st : State) :
    Except State State := do
  let st ← forwardPacket c env fuel wid shadowSize myStage st
  let st ← forwardPacket c env fuel wid shadowSize myStage st
  Stopping.forLoop 0 pageSize 8 (fun _ st => do
    let st ← forwardPacket c env fuel wid 8 myStage st
    forwardPacket c env fuel wid 8 myStage st) st

/-- The two calls that update shadows of loop invariants and predictions are to
    functions whose source is not given, and touch none of this state. -/
def endIter (c : Config) (env : Env) (fuel wid _iter : ℕ) (myStage : ℤ) (st : State) :
    Except State State :=
  if wid = asUnsigned myStage then do
    let st ← Stopping.forLoop 0 c.numGlobals 1
      (fun i st => forwardPair c env fuel wid (st.shadowGlobals i) myStage st) st
    let st ← Stopping.forLoop 0 c.numHeaps 1
      (fun i st => forwardPair c env fuel wid (st.shadowHeaps i) myStage st) st
    Stopping.forLoop 0 c.numStacks 1
      (fun i st => forwardPair c env fuel wid (st.shadowStacks i) myStage st) st
  else .ok st

def endInvocation (c : Config) (st : State) : State :=
  let st := st.munmap (st.global .pcb) sizeofPcb
  let st := finiPackets c.numAllWorkers st
  finiQueues c.numWorkers c.numAuxWorkers st

/-- The body of the inner loop of `main`, after the assignments to its variables. -/
def mainIter (c : Config) (env : Env) (fuel w iter : ℕ) (v : MainVars) (st : State) :
    Except State State := do
  let st ← beginIter c env fuel w iter v.myStage v.isMyIter st
  let st ← if iter = 0 then busyWait w v.myStage fuel st else .ok st
  endIter c env fuel w iter v.myStage st

def main (c : Config) (env : Env) (fuel : ℕ) : Except State State := do
  let st := beginInvocation c .init
  let st ← mainLoops c.numWorkers c.numIters c.numWorkersPerHeap c.jump (mainIter c env fuel) st
  .ok (endInvocation c st)

end SpecPriv.Trans
