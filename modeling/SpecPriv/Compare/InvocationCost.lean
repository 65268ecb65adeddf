/-
  The cost of the beginning and the end of an invocation.

  Beyond the queues (`queueCost_exact`) the simplified translation charges for
  the packets, the prediction buffers and the PCB.  The faithful one maps for
  each worker a pool and the chunks, as is charged for, but also six tables for
  their pointers and the pool of the commit process, and it has the buffers
  without mapping them.

  `invocationCost_exact`: so the charges and the calls of `mmap` and `munmap`
  differ by constants, and by what the buffers are charged.
-/
import SpecPriv.Compare.QueueCost
import SpecPriv.Trans.Invariant

namespace SpecPriv.Compare

open Loop Regions Meter SpecPriv.Trans

/-! ## The simplified translation -/

theorem initBuffers_adds (l n : ℕ) :
    Adds (fun _ => True) Simple.State.total ((l - 0) * ((n - 0) * 400))
      (Simple.initBuffers l n) := by
  have hcell (i j : ℕ) : Adds (fun _ => True) Simple.State.total 400 fun st : Simple.State =>
      ((st.charge 400).setLoopInvariantBuffer i j 0).setLinearPredictors i j 0 :=
    fun st _ => ⟨trivial, Simple.State.charge_total 400 st⟩
  exact Adds.forLoop_const 0 l fun i _ _ => Adds.forLoop_const 0 n fun j _ _ => hcell i j

theorem uninitBuffers_adds (l n : ℕ) :
    Adds (fun _ => True) Simple.State.total ((l - 0) * ((n - 0) * 1000))
      (Simple.uninitBuffers l n) :=
  Adds.forLoop_const 0 l fun _ _ _ => Adds.forLoop_const 0 n fun _ _ _ => charge_adds 1000

theorem simple_initPackets_adds (n : ℤ) :
    Adds (fun _ => True) Simple.State.total ((n.toNat - 0) * 200 + (n.toNat - 0) * 200)
      (Simple.initPackets n) := by
  have hloop := Adds.forLoop_const 0 n.toNat fun _ _ _ => charge_adds 200
  exact hloop.comp hloop

theorem uninitPackets_adds (n : ℤ) :
    Adds (fun _ => True) Simple.State.total ((n.toNat - 0) * 500 + (n.toNat - 0) * 500)
      (Simple.uninitPackets n) := by
  have hloop := Adds.forLoop_const 0 n.toNat fun _ _ _ => charge_adds 500
  exact hloop.comp hloop

theorem simple_initHeaps_adds (c : Simple.Config) (globalSize heapSize stackSize : ℤ) :
    Adds (fun _ => True) Simple.State.total 0
      (Simple.initHeaps c globalSize heapSize stackSize) := by
  have hkeep {body : ℕ → Simple.State → Simple.State} (h : ∀ i st, (body i st).total = st.total)
      (n : ℕ) (st : Simple.State) : (forLoop 0 n 1 body st).total = st.total :=
    forLoop_same Simple.State.total h 0 n 1 st
  intro st _
  refine ⟨trivial, (hkeep ?_ _ _).trans ((hkeep ?_ _ _).trans (hkeep ?_ _ st))⟩
  · intro _ _
    rfl
  · intro _ _
    rfl
  · intro _ _
    rfl

theorem simple_beginInvocation_total (c : Simple.Config) (st : Simple.State) :
    (Simple.beginInvocation c st).total = st.total + c.beginCost := by
  have hqueues := simple_initQueues_adds c.width c.numAuxWorkers Simple.queueSize
  have hbuffers := initBuffers_adds c.maxLoads c.maxContexts
  have hpackets := simple_initPackets_adds c.numAllWorkers
  have hheaps := simple_initHeaps_adds c c.maxGlobalSize c.maxHeapSize c.maxStackSize
  have hall := (((hqueues.comp hbuffers).comp hpackets).comp hheaps).comp (charge_adds 200)
  have hwidth : c.numWorkers = (c.width : ℤ) := c.numWorkers_eq
  have htotal := (hall st trivial).2
  rw [← hwidth, c.numAllWorkers_toNat] at htotal
  simp only [Nat.sub_zero] at htotal
  refine htotal.trans ?_
  unfold Simple.Config.beginCost
  omega

theorem simple_endInvocation_total (c : Simple.Config) (st : Simple.State) :
    (Simple.endInvocation c st).total = st.total + c.endCost := by
  have hqueues := simple_uninitQueues_adds c.width c.numAuxWorkers
  have hbuffers := uninitBuffers_adds c.maxLoads c.maxContexts
  have hpackets := uninitPackets_adds c.numAllWorkers
  have hall := ((hqueues.comp hbuffers).comp hpackets).comp (charge_adds 500)
  have hwidth : c.numWorkers = (c.width : ℤ) := c.numWorkers_eq
  have htotal := (hall st trivial).2
  rw [← hwidth, c.numAllWorkers_toNat] at htotal
  simp only [Nat.sub_zero] at htotal
  refine htotal.trans ?_
  unfold Simple.Config.endCost
  omega

/-! ## The faithful translation -/

/-- What the calls of `mmap` of `init_packets` add to a meter. -/
theorem trans_initPackets_adds {P : State → ℕ} {k : ℕ}
    (hmmap : ∀ a i length, Adds (fun _ => True) P k (State.mmap a i length))
    (hpool : ∀ st pool, P { st with pool := pool } = P st)
    (hcommit : ∀ st pool, P { st with commitPool := pool } = P st) (n : ℕ) :
    Adds (fun _ => True) P ((2 * n + 7) * k) (Trans.initPackets n) := by
  have hglobal (g : Global) (length : ℕ) := hmmap globals g.index length
  have hpools : Adds (fun _ => True) P ((n - 0) * k) (forLoop 0 n 1 fun i st =>
      let st := State.mmap (State.global .packetBegins st) i (sizeofPacket * packetPoolSize) st
      { st with pool := Function.update st.pool i .mapped }) := by
    refine Adds.forLoop_const 0 n ?_
    intro i _ _ st _
    have hst := hmmap (st.global .packetBegins) i (sizeofPacket * packetPoolSize) st trivial
    exact ⟨trivial, (hpool _ _).trans hst.2⟩
  have hcommitPool : Adds (fun _ => True) P k fun st : State =>
      { st.mmap globals Global.commitProcessPacketBegin.index (sizeofPacket * packetPoolSize) with
        commitPool := .mapped } := by
    intro st _
    have hst := hglobal .commitProcessPacketBegin (sizeofPacket * packetPoolSize) st trivial
    exact ⟨trivial, (hcommit _ _).trans hst.2⟩
  have hchunks : Adds (fun _ => True) P ((n - 0) * k) (forLoop 0 n 1 fun i st =>
      State.mmap (State.global .packetChunkBegins st) i (sizeofPacketChunk * packetPoolSize) st) :=
    Adds.forLoop_const 0 n fun i _ _ st _ =>
      hmmap (st.global .packetChunkBegins) i (sizeofPacketChunk * packetPoolSize) st trivial
  have hall := ((((((((hglobal .packetBegins (sizeofPtr * n)).comp
    (hglobal .packetEnds (sizeofPtr * n))).comp (hglobal .packetNexts (sizeofPtr * n))).comp
    hpools).comp hcommitPool).comp (hglobal .packetChunkBegins (sizeofPtr * n))).comp
    (hglobal .packetChunkEnds (sizeofPtr * n))).comp
    (hglobal .packetChunkNexts (sizeofPtr * n))).comp hchunks
  intro st hst
  refine ⟨trivial, (hall st hst).2.trans ?_⟩
  rw [Nat.sub_zero]
  ring

theorem trans_numAllWorkers (c : Trans.Config) : c.numAllWorkers = 12 := by
  have haux := c.aux_lt
  unfold Trans.Config.numAllWorkers
  omega

theorem trans_beginInvocation_weight (c : Trans.Config) (st : State) :
    builtWeight (Trans.beginInvocation c st) = builtWeight st +
      (Simple.tablesCost 200 (200 + queueSize * 13) c.numWorkers c.numAuxWorkers + 6400) := by
  have hheaps : Adds (fun _ => True) builtWeight 0
      (Trans.initHeaps c c.maxGlobalSize c.maxHeapSize c.maxStackSize) :=
    fun st _ => ⟨trivial, initHeaps_same builtWeight (fun _ _ _ _ => rfl) _ _ _⟩
  have hpackets := trans_initPackets_adds mmap_adds (fun _ _ => rfl) (fun _ _ => rfl)
    c.numAllWorkers
  have hall := ((hpackets.comp
    (trans_initQueues_adds c.numWorkers c.numAuxWorkers)).comp hheaps).comp
    (mmap_adds globals Global.pcb.index sizeofPcb)
  refine (hall st trivial).2.trans ?_
  rw [trans_numAllWorkers]
  omega

section Fini

variable {h : Heap} {n : ℕ}

theorem finiPackets_adds (n : ℕ) :
    Adds (fun st => st.heap = h) freedWeight ((2 * n + 6) * 500) (finiPackets n) := by
  have htable (g : Global) : Adds (fun st => st.heap = h) freedWeight 500
      fun st : State => st.munmap (st.global g) (sizeofPtr * n) :=
    fun st => munmap_adds (st.global g) (sizeofPtr * n) st
  have hpools := Adds.forLoop_const 0 n fun i _ _ =>
    (unmapAt_adds (h := h) .packetBegins i (sizeofPacket * packetPoolSize)).comp
      (unmapAt_adds .packetChunkBegins i (sizeofPacket * packetPoolSize))
  have hall := (((((hpools.comp (htable .packetBegins)).comp (htable .packetEnds)).comp
    (htable .packetNexts)).comp (htable .packetChunkBegins)).comp (htable .packetChunkEnds)).comp
    (htable .packetChunkNexts)
  intro st hst
  obtain ⟨hheap, hweight⟩ := hall st hst
  refine ⟨hheap, hweight.trans ?_⟩
  omega

theorem trans_endInvocation_weight {c : Trans.Config} (hb : Built c.numWorkers c.numAuxWorkers h)
    {st : State} (hst : st.heap = h) :
    freedWeight (Trans.endInvocation c st) = freedWeight st +
      (Simple.tablesCost 500 500 c.numWorkers c.numAuxWorkers + 15500) := by
  have hpcb : Adds (fun st => st.heap = h) freedWeight 500
      fun st : State => st.munmap (st.global .pcb) sizeofPcb :=
    fun st => munmap_adds (st.global .pcb) sizeofPcb st
  have hall := (hpcb.comp (finiPackets_adds c.numAllWorkers)).comp (finiQueues_adds hb)
  refine (hall st hst).2.trans ?_
  rw [trans_numAllWorkers]
  omega

end Fini

/-- **What the costs of an invocation leave out.**  For the same number of aux
    workers, and from any states, the simplified `begin_invocation` charges for
    seven calls of `mmap` less than the faithful one makes, and
    `end_invocation`, after any calls in between, for six calls of `munmap`
    less; in addition both charge for the prediction buffers. -/
theorem invocationCost_exact (c : Simple.Config) (ct : Trans.Config) (st : Simple.State)
    (st' : Trans.State) (env : Env) (fuel : ℕ) (calls : List Trans.MainCall) :
    let cs := { c with numAuxWorkers := ct.numAuxWorkers, aux_lt := ct.aux_lt }
    let begun := Trans.beginInvocation ct { st' with log := [] }
    let left := Stopping.last (Trans.runMain ct env fuel calls begun)
    let ended := Trans.endInvocation ct { left with log := [] }
    (Simple.beginInvocation cs st).total + 7 * 200 = st.total +
        (200 * mmaps begun.log + 13 * clears begun.log + 400 * (cs.maxLoads * cs.maxContexts)) ∧
      (Simple.endInvocation cs st).total + 6 * 500 = st.total +
        (500 * munmaps ended.log + 1000 * (cs.maxLoads * cs.maxContexts)) := by
  intro cs begun left ended
  have haux : ct.numAuxWorkers = cs.numAuxWorkers := rfl
  have hwidth : ct.numWorkers = cs.width := rfl
  have hbegun : builtWeight begun = _ := trans_beginInvocation_weight ct { st' with log := [] }
  -- no call touches the tables that `begin_invocation` has built
  have hheap : { left with log := [] }.heap = begun.heap :=
    run_keeps (stable_heap begun.heap) calls begun rfl
  have hended : freedWeight ended = _ :=
    trans_endInvocation_weight (beginInvocation_built ct _) hheap
  rw [hwidth, haux] at hbegun hended
  refine ⟨?_, ?_⟩
  · have hzero : builtWeight { st' with log := [] } = 0 := rfl
    rw [simple_beginInvocation_total, Simple.Config.beginCost]
    unfold builtWeight at hbegun hzero
    have hsize : Simple.queueSize = queueSize := rfl
    rw [hsize, ← Nat.mul_assoc]
    omega
  · have hzero : freedWeight { left with log := [] } = 0 := rfl
    rw [simple_endInvocation_total, Simple.Config.endCost]
    unfold freedWeight at hended hzero
    rw [← Nat.mul_assoc]
    omega

end SpecPriv.Compare
