/-
  The state of the faithful translation.

  The tables of queues are regions of a heap of pointers (`Regions.Heap`); the
  queue in a region is a `SwQueue`.  `Entry` names the places of the tables
  that lead to a queue.  `log` records what the program does to memory and to
  queues, latest first; no function reads it.

  A place without a queue holds null.  The program never tests for this: a
  produce or a consume there is recorded, and is the last thing it does.
-/
import SpecPriv.Lib.Regions
import SpecPriv.Trans.SwQueue

namespace SpecPriv.Trans

open Loop Regions

/-! ## Constants -/

/-- The changeable constants, and `GET_FIRST_WID_OF_STAGE`, which the source
    names without defining it. -/
structure Config where
  numAuxWorkers : ℕ
  numHeaps : ℕ
  numGlobals : ℕ
  numStacks : ℕ
  maxGlobalSize : ℕ
  maxStackSize : ℕ
  maxHeapSize : ℕ
  numWorkersPerHeap : ℕ
  firstWidOfStage : ℤ → ℕ
  /-- there is a worker -/
  aux_lt : numAuxWorkers < 12
  perHeap_pos : 0 < numWorkersPerHeap
  heaps_lt : numHeaps < 2 ^ 31

theorem Config.default_aux_lt : 2 < 12 := by decide

theorem Config.default_heaps_lt : 20 < 2 ^ 31 := by decide

/-- The constants as they are in the source. -/
def Config.default : Config where
  numAuxWorkers := 2
  numHeaps := 20
  numGlobals := 20
  numStacks := 20
  maxGlobalSize := 0x1000
  maxStackSize := 0x1000
  maxHeapSize := 0x1000
  numWorkersPerHeap := 2
  firstWidOfStage stage := stage.toNat
  aux_lt := default_aux_lt
  perHeap_pos := Nat.two_pos
  heaps_lt := default_heaps_lt

namespace Config
variable (c : Config)

def numStages : ℕ := c.numHeaps

def numWorkers : ℕ := 12 - c.numAuxWorkers

/-- `NUM_WORKERS/NUM_WORKERS_PER_HEAP`; the macro is expanded as text. -/
def numWorkersDivPerHeap : ℕ := 12 - c.numAuxWorkers / c.numWorkersPerHeap

def numIters : ℕ := c.numHeaps / c.numWorkersDivPerHeap * c.numWorkersPerHeap

/-- `NUM_STAGES/(NUM_WORKERS/NUM_WORKERS_PER_HEAP)`. -/
def jump : ℕ := c.numStages / c.numWorkersDivPerHeap

/-- `NUM_WORKERS+num_aux_workers`. -/
def numAllWorkers : ℕ := 12 - c.numAuxWorkers + c.numAuxWorkers

end Config

def queueSize : ℕ := 8192 * 2

def pageSize : ℕ := 4 * 1024

def packetPoolSize : ℕ := 8192 * 2 * 4 * 8

/-- `sizeof` of a pointer, `queue_t`, `packet`, `packet_chunk` and `pcb_t`. -/
def sizeofPtr : ℕ := 8
def sizeofQueue : ℕ := 8 * 5 + 8 * queueSize
def sizeofPacket : ℕ := 32
def sizeofPacketChunk : ℕ := 64 + pageSize
def sizeofPcb : ℕ := 32

/-! ## States -/

/-- A place of the tables that leads to a queue. -/
inductive Entry
  | ucvf (x y : ℕ)
  | queue (x y : ℕ)
  | commit (i : ℕ)
  | reverse (i : ℕ)
deriving DecidableEq

/-- The global variables that hold the pointers of regions. -/
inductive Global
  | ucvfQueues
  | queues
  | commitQueues
  | reverseCommitQueues
  | packetBegins
  | packetEnds
  | packetNexts
  | packetChunkBegins
  | packetChunkEnds
  | packetChunkNexts
  | commitProcessPacketBegin
  | pcb
deriving DecidableEq

/-- The region of the global variables. -/
def globals : ℕ := 1

/-- The word of a global variable. -/
def Global.index : Global → ℕ
  | ucvfQueues => 0
  | queues => 1
  | commitQueues => 2
  | reverseCommitQueues => 3
  | packetBegins => 4
  | packetEnds => 5
  | packetNexts => 6
  | packetChunkBegins => 7
  | packetChunkEnds => 8
  | packetChunkNexts => 9
  | commitProcessPacketBegin => 10
  | pcb => 11

/-- `packet`. -/
structure Packet where
  ptr : Cell64
  value : Cell64
  size : ℕ
  isWrite : ℤ
  type : ℤ

/-- A pool of packets: the offset of its `next`, and the `ptr` of its packets. -/
structure Pool where
  next : ℕ
  ptr : ℕ → Cell64

/-- A pool as it is mapped: all its packets are available. -/
def Pool.mapped : Pool := ⟨0, fun _ => 0#64⟩

inductive Event
  | mmap (addr length : ℕ)
  | munmap (addr length : ℕ)
  | load (addr : ℕ)
  | clear (queue slot : ℕ)
  | produce (e : Entry) (value : Cell64)
  | consume (e : Entry) (isEmpty : Bool)
deriving DecidableEq

structure State where
  heap : Heap
  /-- the queues, by region -/
  queue : ℕ → SwQueue queueSize
  /-- the packets of `create_packet`, by address, and how many there were -/
  packet : Cell64 → Packet
  created : ℕ
  /-- the pools of the workers, and that of the commit process -/
  pool : ℕ → Pool
  commitPool : Pool
  /-- the sizes of the shadow globals, heaps and stacks -/
  shadowGlobals : ℕ → ℤ
  shadowHeaps : ℕ → ℤ
  shadowStacks : ℕ → ℤ
  log : List Event

/-- The state as the program starts. -/
def State.init : State where
  heap := .init
  queue _ := ⟨0, 0, 0, Vector.replicate queueSize swQueueNull⟩
  packet _ := ⟨0#64, 0#64, 0, 0, 0⟩
  created := 0
  pool _ := .mapped
  commitPool := .mapped
  shadowGlobals _ := 0
  shadowHeaps _ := 0
  shadowStacks _ := 0
  log := []

/-- The pointer in a place of the tables. -/
def Entry.ptr (h : Heap) : Entry → ℕ
  | ucvf x y => h.word (h.word (h.word globals Global.ucvfQueues.index) x) y
  | queue x y => h.word (h.word (h.word globals Global.queues.index) x) y
  | commit i => h.word (h.word globals Global.commitQueues.index) i
  | reverse i => h.word (h.word globals Global.reverseCommitQueues.index) i

/-- The environment: the addresses that `malloc` returns, call by call, and what
    `create_packet` leaves there for a worker and a type. -/
structure Env where
  address : ℕ → Cell64
  packet : ℕ → ℕ → ℤ → Packet

namespace State

def record (ev : Event) (st : State) : State := { st with log := ev :: st.log }

/-- The region that a global variable leads to. -/
def global (g : Global) (st : State) : ℕ := st.heap.word globals g.index

/-- Read a pointer from a region. -/
def load (a i : ℕ) (st : State) : ℕ × State := (st.heap.word a i, st.record (.load a))

/-- `mmap`, the pointer being stored in a word of a region. -/
def mmap (a i length : ℕ) (st : State) : State :=
  { st with heap := st.heap.mapAt a i, log := .mmap st.heap.next length :: st.log }

def munmap (addr length : ℕ) (st : State) : State := st.record (.munmap addr length)

def setQueue (p : ℕ) (q : SwQueue queueSize) (st : State) : State :=
  { st with queue := Function.update st.queue p q }

variable (ev : Event) (a i length p : ℕ) (q : SwQueue queueSize) (st : State)

@[simp] theorem record_queue : (st.record ev).queue = st.queue := rfl

@[simp] theorem record_log : (st.record ev).log = ev :: st.log := rfl

@[simp] theorem load_snd : (st.load a i).2 = st.record (.load a) := rfl

@[simp] theorem mmap_heap : (st.mmap a i length).heap = st.heap.mapAt a i := rfl

@[simp] theorem mmap_log : (st.mmap a i length).log = .mmap st.heap.next length :: st.log := rfl

@[simp] theorem munmap_log : (st.munmap a length).log = .munmap a length :: st.log := rfl

@[simp] theorem setQueue_log : (st.setQueue p q).log = st.log := rfl

end State

end SpecPriv.Trans
