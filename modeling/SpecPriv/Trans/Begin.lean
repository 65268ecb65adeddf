/-
  The state in which the loops of `main` start.

  `begin_invocation` has built the tables for the workers, all queues are
  empty, and all packets of the pools are available.
-/
import SpecPriv.Trans.Forward

namespace SpecPriv.Trans

open Loop Regions Heap

variable {c : Config} {st : State} {P : State → Prop} {h h' : Heap} {g : Global} {n a : ℕ}

/-- A queue as `__sw_queue_reset` leaves it. -/
def emptyQueue : SwQueue queueSize := ⟨0, 0, 0, Vector.replicate queueSize swQueueNull⟩

/-- The queue holds no packet. -/
def IsEmpty (q : SwQueue queueSize) : Prop := Represents (queueSize / 2) q []

theorem emptyQueue_isEmpty : IsEmpty emptyQueue :=
  reset_represents queueSize_eq (by decide) emptyQueue

theorem Built.frame (hb : Built n a h) (hframe : Frame (fun b j => b = globals ∧ j = g.index) h h')
    (hu : g ≠ .ucvfQueues) (hq : g ≠ .queues) (hc : g ≠ .commitQueues)
    (hr : g ≠ .reverseCommitQueues) : Built n a h' where
  ucvf := hb.ucvf.frame hu.symm hframe
  queues := hb.queues.frame hq.symm hframe
  commit := hb.commit.frame hc.symm hframe
  reverse := hb.reverse.frame hr.symm hframe

theorem initHeaps_same {α : Type*} (f : State → α)
    (hf : ∀ st sg sh ss, f { st with shadowGlobals := sg, shadowHeaps := sh, shadowStacks := ss } =
      f st) (globalSize heapSize stackSize : ℤ) :
    f (initHeaps c globalSize heapSize stackSize st) = f st := by
  unfold initHeaps
  dsimp only
  rw [forLoop_same f fun _ st => hf st _ st.shadowHeaps _,
    forLoop_same f fun _ st => hf st _ st.shadowHeaps st.shadowStacks,
    forLoop_same f fun _ st => hf st st.shadowGlobals _ st.shadowStacks]

/-- **The tables are built** for the workers and the aux workers. -/
theorem beginInvocation_built (c : Config) (st : State) :
    Built c.numWorkers c.numAuxWorkers (beginInvocation c st).heap := by
  have hb := initQueues_built c.numWorkers c.numAuxWorkers (initPackets c.numAllWorkers st)
  have hframe := mapAt_frame (a := globals) (by decide) Global.pcb.index
    (initQueues c.numWorkers c.numAuxWorkers (initPackets c.numAllWorkers st)).heap
  have hheap : (beginInvocation c st).heap = mapAt globals Global.pcb.index
      (initQueues c.numWorkers c.numAuxWorkers (initPackets c.numAllWorkers st)).heap := by
    unfold beginInvocation
    rw [State.mmap_heap, initHeaps_same State.heap fun _ _ _ _ => rfl]
  rw [hheap]
  exact hb.frame hframe (by decide) (by decide) (by decide) (by decide)

/-- What `mmap` and the reset of a queue keep, `init_queues` keeps. -/
theorem initQueues_keeps (hmmap : ∀ a i length st, P st → P (st.mmap a i length))
    (hreset : ∀ queue st, P st → P (swQueueReset queue st)) (n a : ℕ) (h : P st) :
    P (initQueues n a st) := by
  have hcreate (p i : ℕ) (st : State) (h : P st) : P (swQueueCreate p i st) := by
    unfold swQueueCreate
    exact hreset _ _ (hmmap _ _ _ _ h)
  unfold initQueues
  refine forLoop_keeps P (fun i _ _ st => hcreate _ i st) (hmmap _ _ _ _ ?_)
  refine forLoop_keeps P (fun i _ _ st => hcreate _ i st) (hmmap _ _ _ _ ?_)
  refine forLoop_keeps P ?_ (hmmap _ _ _ _ ?_)
  · intro i _ _ st hst
    exact forLoop_keeps P (fun j _ _ st => hcreate _ j st) (hmmap _ _ _ _ hst)
  · refine forLoop_keeps P ?_ (hmmap _ _ _ _ h)
    intro i _ _ st hst
    exact forLoop_keeps P (fun j _ _ st => hcreate _ j st) (hmmap _ _ _ _ hst)

/-- What `mmap` and setting up the pools keep, `init_packets` keeps. -/
theorem initPackets_keeps (hmmap : ∀ a i length st, P st → P (st.mmap a i length))
    (hpool : ∀ wid st, P st → P { st with pool := Function.update st.pool wid .mapped })
    (hcommit : ∀ st, P st → P { st with commitPool := .mapped }) (n : ℕ) (h : P st) :
    P (initPackets n st) := by
  unfold initPackets
  refine forLoop_keeps P (fun i _ _ st => hmmap _ i _ st) ?_
  refine hmmap _ _ _ _ (hmmap _ _ _ _ (hmmap _ _ _ _ (hcommit _ (hmmap _ _ _ _ ?_))))
  refine forLoop_keeps P ?_ (hmmap _ _ _ _ (hmmap _ _ _ _ (hmmap _ _ _ _ h)))
  intro i _ _ st hst
  exact hpool i _ (hmmap _ _ _ _ hst)

/-- The queues are empty and the pools are as they are mapped. -/
structure Clean (st : State) : Prop where
  queue : ∀ p, st.queue p = emptyQueue
  pool : ∀ wid, st.pool wid = .mapped
  commitPool : st.commitPool = .mapped

theorem clearSlot_clean (queue i : ℕ) (h : Clean st) : Clean (clearSlot queue i st) := by
  have hset : emptyQueue.data.setIfInBounds i swQueueNull = emptyQueue.data := by
    ext j hj
    simp [emptyQueue]
  refine ⟨?_, h.pool, h.commitPool⟩
  intro p
  by_cases hp : p = queue
  · subst hp
    show Function.update st.queue p _ p = emptyQueue
    rw [Function.update_self, h.queue, hset]
  · show Function.update st.queue queue _ p = emptyQueue
    rw [Function.update_of_ne hp, h.queue]

theorem swQueueReset_clean (queue : ℕ) (h : Clean st) : Clean (swQueueReset queue st) := by
  unfold swQueueReset
  refine forLoop_keeps Clean (fun i _ _ st => clearSlot_clean queue i) ⟨?_, h.pool, h.commitPool⟩
  intro p
  by_cases hp : p = queue
  · subst hp
    show Function.update st.queue p _ p = emptyQueue
    rw [Function.update_self, h.queue]
    rfl
  · show Function.update st.queue queue _ p = emptyQueue
    rw [Function.update_of_ne hp, h.queue]

/-- **The queues and the pools are as good as new** when the loops of `main` start. -/
theorem beginInvocation_clean (c : Config) : Clean (beginInvocation c .init) := by
  have hmmap (a i length : ℕ) (st : State) (h : Clean st) : Clean (st.mmap a i length) :=
    ⟨h.queue, h.pool, h.commitPool⟩
  have hpool (wid : ℕ) (st : State) (h : Clean st) :
      Clean { st with pool := Function.update st.pool wid .mapped } := by
    refine ⟨h.queue, ?_, h.commitPool⟩
    intro w
    by_cases hw : w = wid
    · subst hw
      exact Function.update_self w _ _
    · exact (Function.update_of_ne hw _ _).trans (h.pool w)
  have hinit : Clean State.init := ⟨fun _ => rfl, fun _ => rfl, rfl⟩
  have hpackets := initPackets_keeps hmmap hpool (fun _ h => ⟨h.queue, h.pool, rfl⟩)
    c.numAllWorkers hinit
  have hqueues := initQueues_keeps hmmap (fun queue st => swQueueReset_clean queue)
    c.numWorkers c.numAuxWorkers hpackets
  unfold beginInvocation
  refine hmmap _ _ _ _ ?_
  refine ⟨?_, ?_, ?_⟩
  · rw [initHeaps_same State.queue fun _ _ _ _ => rfl]
    exact hqueues.queue
  · rw [initHeaps_same State.pool fun _ _ _ _ => rfl]
    exact hqueues.pool
  · rw [initHeaps_same State.commitPool fun _ _ _ _ => rfl]
    exact hqueues.commitPool

theorem beginInvocation_idle (c : Config) : Idle (beginInvocation c .init) := by
  have hclean := beginInvocation_clean c
  refine ⟨?_, ?_, ?_⟩
  · intro wid i
    rw [hclean.pool]
    rfl
  · intro i
    rw [hclean.commitPool]
    rfl
  · intro p
    rw [hclean.queue]
    exact ⟨⟨0, by decide, rfl⟩, 0, by decide, rfl⟩

end SpecPriv.Trans
