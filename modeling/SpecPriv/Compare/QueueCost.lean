/-
  The cost of the queues in the simplified translation is what the faithful
  translation does.

  The simplified `init_queues` charges 200 for a table or a queue and 13 for a
  slot, and its `uninit_queues` charges 500 for a table or a queue.  These are
  counted here on both sides, as what a program adds to a meter
  (`Meter.Adds`): the charges on one, the calls of `mmap` and `munmap` and the
  slots that are cleared on the other.

  The loops of both `init_queues` are the same (`buildTables`).  Those of the
  two functions that release the queues are not: the faithful one runs over all
  pairs of workers and relies on the entries without a queue being null.
-/
import SpecPriv.Lib.Meter
import SpecPriv.Simple.Invocation
import SpecPriv.Trans.Tables

namespace SpecPriv.Compare

open Loop Regions Meter Finset SpecPriv.Trans

/-- The number of calls of `mmap` in a log. -/
def mmaps (log : List Trans.Event) : ℕ :=
  log.countP fun | .mmap _ _ => true | _ => false

/-- The number of calls of `munmap` in a log. -/
def munmaps (log : List Trans.Event) : ℕ :=
  log.countP fun | .munmap _ _ => true | _ => false

/-- The number of slots that are cleared in a log. -/
def clears (log : List Trans.Event) : ℕ :=
  log.countP fun | .clear _ _ => true | _ => false

/-- The loops of `init_queues`, given what is done for a table, for a row of a
    table and for a queue. -/
def buildTables {σ : Type*} (nWorkers nAuxWorkers : ℕ) (table : Global → σ → σ)
    (row : Global → ℕ → σ → σ) (queue : Entry → σ → σ) (s : σ) : σ :=
  let s := table .ucvfQueues s
  let s := forLoop 0 nWorkers 1 (fun i s =>
    let s := row .ucvfQueues i s
    forLoop (i + 1) nWorkers 1 (fun j => queue (.ucvf i j)) s) s
  let s := table .queues s
  let s := forLoop 0 nWorkers 1 (fun i s =>
    let s := row .queues i s
    forLoop 0 nAuxWorkers 1 (fun j => queue (.queue i j)) s) s
  let s := table .commitQueues s
  let s := forLoop 0 nAuxWorkers 1 (fun j => queue (.commit j)) s
  let s := table .reverseCommitQueues s
  forLoop 0 nWorkers 1 (fun j => queue (.reverse j)) s

section Tables

variable {σ : Type*} {I : σ → Prop} {P : σ → ℕ} {t q : ℕ} (table : Global → σ → σ)
  (row : Global → ℕ → σ → σ) (queue : Entry → σ → σ)

theorem buildTables_adds (htable : ∀ g, Adds I P t (table g)) (hrow : ∀ g i, Adds I P t (row g i))
    (hqueue : ∀ e, Adds I P q (queue e)) (n a : ℕ) :
    Adds I P (Simple.tablesCost t q n a) (buildTables n a table row queue) := by
  have hucvf := Adds.forLoop (P := P) 0 n fun i _ _ => (hrow .ucvfQueues i).comp
    (Adds.forLoop_const (i + 1) n fun j _ _ => hqueue (.ucvf i j))
  have hqueues := Adds.forLoop_const 0 n fun i _ _ => (hrow .queues i).comp
    (Adds.forLoop_const 0 a fun j _ _ => hqueue (.queue i j))
  have hcommit := Adds.forLoop_const 0 a fun j _ _ => hqueue (.commit j)
  have hreverse := Adds.forLoop_const 0 n fun j _ _ => hqueue (.reverse j)
  have := (((((((htable .ucvfQueues).comp hucvf).comp (htable .queues)).comp hqueues).comp
    (htable .commitQueues)).comp hcommit).comp (htable .reverseCommitQueues)).comp hreverse
  unfold buildTables
  convert this using 1
  simp only [Simple.tablesCost, Nat.sub_zero, Nat.zero_add, Nat.add_assoc]

end Tables

/-! ## The simplified translation -/

theorem charge_adds (n : ℕ) : Adds (fun _ => True) Simple.State.total n (Simple.State.charge n) :=
  fun st _ => ⟨trivial, Simple.State.charge_total n st⟩

theorem initQueue_adds (cell : Simple.Tally) (n : ℕ) :
    Adds (fun _ => True) Simple.State.total (200 + n * 13) (Simple.initQueue cell n) := by
  have hstore : Adds (fun _ => True) Simple.State.total 0 (Simple.State.store cell 0) :=
    fun st _ => ⟨trivial, Simple.State.store_total cell 0 st⟩
  exact ((charge_adds 200).comp hstore).comp (Adds.forLoop_const 0 n fun _ _ _ => charge_adds 13)

/-- The tally of a place. -/
def tallyOf : Entry → Simple.Tally
  | .ucvf x y => .ucvf x y
  | .queue x y => .queue x y
  | .commit i => .commit i
  | .reverse i => .reverse i

theorem simple_initQueues_adds (n a size : ℕ) :
    Adds (fun _ => True) Simple.State.total (Simple.tablesCost 200 (200 + size * 13) n a)
      (Simple.initQueues n a size) :=
  buildTables_adds (fun _ => Simple.State.charge 200) (fun _ _ => Simple.State.charge 200)
    (fun e => Simple.initQueue (tallyOf e) size)
    (fun _ => charge_adds 200) (fun _ _ => charge_adds 200) (fun _ => initQueue_adds _ size) n a

theorem simple_uninitQueues_adds (n a : ℕ) :
    Adds (fun _ => True) Simple.State.total (Simple.tablesCost 500 500 n a)
      (Simple.uninitQueues n a) :=
  buildTables_adds (fun _ => Simple.State.charge 500) (fun _ _ => Simple.State.charge 500)
    (fun _ => Simple.State.charge 500)
    (fun _ => charge_adds 500) (fun _ _ => charge_adds 500) (fun _ => charge_adds 500) n a

/-! ## The faithful translation -/

/-- What `init_queues` adds to a log, weighed as the simplified translation does. -/
def builtWeight (st : State) : ℕ := 200 * mmaps st.log + 13 * clears st.log

/-- What `fini_queues` adds to a log, weighed so. -/
def freedWeight (st : State) : ℕ := 500 * munmaps st.log

theorem mmap_adds (a i length : ℕ) :
    Adds (fun _ => True) builtWeight 200 (State.mmap a i length) := by
  intro st _
  refine ⟨trivial, ?_⟩
  simp [builtWeight, mmaps, clears]
  omega

theorem clearSlot_adds (queue i : ℕ) :
    Adds (fun _ => True) builtWeight 13 (clearSlot queue i) := by
  intro st _
  refine ⟨trivial, ?_⟩
  simp [builtWeight, mmaps, clears, clearSlot]
  omega

theorem swQueueReset_adds (queue : ℕ) :
    Adds (fun _ => True) builtWeight (queueSize * 13) (Trans.swQueueReset queue) := by
  intro st hst
  have hloop := Adds.forLoop_const 0 queueSize fun i _ _ => clearSlot_adds queue i
  have := hloop (st.setQueue queue { st.queue queue with head := 0, tail := 0, finished := 0 }) hst
  rwa [Nat.sub_zero] at this

theorem swQueueCreate_adds (a i : ℕ) :
    Adds (fun _ => True) builtWeight (200 + queueSize * 13) (swQueueCreate a i) := by
  have hreset : Adds (fun _ => True) builtWeight (queueSize * 13)
      fun st : State => Trans.swQueueReset (st.heap.word a i) st :=
    fun st => swQueueReset_adds _ st
  have hcreate := (mmap_adds a i sizeofQueue).comp hreset
  exact hcreate

/-- The region where a queue is created, and the word of it. -/
def regionOf (h : Heap) : Entry → ℕ × ℕ
  | .ucvf x y => (h.word (h.word globals Global.ucvfQueues.index) x, y)
  | .queue x y => (h.word (h.word globals Global.queues.index) x, y)
  | .commit i => (h.word globals Global.commitQueues.index, i)
  | .reverse i => (h.word globals Global.reverseCommitQueues.index, i)

/-- The length of a table. -/
def tableLength (n a : ℕ) : Global → ℕ
  | .commitQueues => sizeofPtr * a
  | _ => sizeofPtr * n

/-- The length of a row of a table. -/
def rowLength (n a : ℕ) : Global → ℕ
  | .queues => sizeofPtr * a
  | _ => sizeofPtr * n

theorem trans_initQueues_adds (n a : ℕ) :
    Adds (fun _ => True) builtWeight (Simple.tablesCost 200 (200 + queueSize * 13) n a)
      (Trans.initQueues n a) :=
  buildTables_adds (fun g => State.mmap globals g.index (tableLength n a g))
    (fun g i st => st.mmap (st.global g) i (rowLength n a g))
    (fun e st => swQueueCreate (regionOf st.heap e).1 (regionOf st.heap e).2 st)
    (fun g => mmap_adds globals g.index (tableLength n a g))
    (fun g i st => mmap_adds (st.global g) i (rowLength n a g) st)
    (fun _ st => swQueueCreate_adds _ _ st) n a

section Fini

variable {h : Heap} {n a : ℕ}

theorem munmap_adds (addr length : ℕ) :
    Adds (fun st => st.heap = h) freedWeight 500 (State.munmap addr length) := by
  intro st hst
  refine ⟨hst, ?_⟩
  simp [freedWeight, munmaps]
  omega

theorem load_adds (addr i : ℕ) :
    Adds (fun st => st.heap = h) freedWeight 0 fun st => (st.load addr i).2 := by
  intro st hst
  exact ⟨hst, by simp [freedWeight, munmaps]⟩

theorem unmapAt_adds (g : Global) (i length : ℕ) :
    Adds (fun st => st.heap = h) freedWeight 500 (unmapAt g i length) := by
  intro st hst
  have hload := load_adds (h := h) (st.global g) i st hst
  have hunmap := munmap_adds (h := h) (st.load (st.global g) i).1 length _ hload.1
  exact ⟨hunmap.1, hunmap.2.trans (by rw [hload.2])⟩

/-- A queue is released where there is one. -/
theorem freeIfCreated_adds (g : Global) (i j : ℕ) {P : Prop} [Decidable P]
    (hP : h.word (h.word (h.word globals g.index) i) j ≠ 0 ↔ P) :
    Adds (fun st => st.heap = h) freedWeight (if P then 500 else 0) (freeIfCreated g i j) := by
  intro st hst
  have hrow := load_adds (h := h) (st.global g) i st hst
  have hqueue := load_adds (h := h) (st.load (st.global g) i).1 j _ hrow.1
  have hptr : ((st.load (st.global g) i).2.load (st.load (st.global g) i).1 j).1 =
      h.word (h.word (h.word globals g.index) i) j := by
    rw [← hst]
    rfl
  unfold freeIfCreated
  dsimp only
  rw [hptr]
  by_cases hc : P
  · rw [if_pos hc, if_pos (hP.2 hc)]
    have hfree := munmap_adds (h := h) (h.word (h.word (h.word globals g.index) i) j) sizeofQueue
      _ hqueue.1
    exact ⟨hfree.1, hfree.2.trans (by rw [hqueue.2, hrow.2])⟩
  · rw [if_neg hc, if_neg fun h0 => hc (hP.1 h0)]
    exact ⟨hqueue.1, hqueue.2.trans (by rw [hrow.2])⟩

/-- The pairs of a worker with a later one. -/
theorem sum_pairs (n i : ℕ) : ∑ j ∈ range n, (if i < j then 500 else 0) = (n - (i + 1)) * 500 := by
  induction n with
  | zero => simp
  | succ n ih =>
    rw [sum_range_succ, ih]
    by_cases hn : i < n
    · rw [if_pos hn]
      omega
    · rw [if_neg hn]
      omega

theorem finiQueues_adds (hb : Built n a h) :
    Adds (fun st => st.heap = h) freedWeight (Simple.tablesCost 500 500 n a) (finiQueues n a) := by
  have htable (g : Global) (length : ℕ) : Adds (fun st => st.heap = h) freedWeight 500
      fun st : State => st.munmap (st.global g) length :=
    fun st => munmap_adds (st.global g) length st
  have hucvfRow (i : ℕ) (hi : i < n) : Adds (fun st => st.heap = h) freedWeight
      ((n - (i + 1)) * 500) (forLoop 0 n 1 (freeIfCreated .ucvfQueues i)) := by
    have := Adds.forLoop 0 n fun j _ (hj : j < n) => freeIfCreated_adds (h := h) .ucvfQueues i j
      (P := i < j) ((hb.ucvf.rows.row i hi j).trans (and_iff_left hj))
    simpa only [Nat.sub_zero, Nat.zero_add, sum_pairs] using this
  have hqueueRow (i : ℕ) (hi : i < n) : Adds (fun st => st.heap = h) freedWeight
      ((a - 0) * 500) (forLoop 0 a 1 (freeIfCreated .queues i)) := by
    refine Adds.forLoop_const 0 a ?_
    intro j _ hj
    have := freeIfCreated_adds (h := h) .queues i j (P := True)
      ((hb.queues.rows.row i hi j).trans (iff_true_intro ⟨Nat.zero_le j, hj⟩))
    rwa [if_pos trivial] at this
  have hucvf := Adds.forLoop 0 n fun i _ hi =>
    (hucvfRow i hi).comp (unmapAt_adds .ucvfQueues i (sizeofPtr * n))
  have hqueues := Adds.forLoop_const 0 n fun i _ hi =>
    (hqueueRow i hi).comp (unmapAt_adds .queues i (sizeofPtr * a))
  have hcommit := Adds.forLoop_const 0 a fun i _ _ =>
    unmapAt_adds (h := h) .commitQueues i sizeofQueue
  have hreverse := Adds.forLoop_const 0 n fun i _ _ =>
    unmapAt_adds (h := h) .reverseCommitQueues i sizeofQueue
  have := (((((((hucvf.comp (htable .ucvfQueues (sizeofPtr * n))).comp hqueues).comp
    (htable .queues (sizeofPtr * n))).comp hcommit).comp
    (htable .commitQueues (sizeofPtr * a))).comp hreverse).comp
    (htable .reverseCommitQueues (sizeofPtr * n)))
  unfold finiQueues
  convert this using 1
  simp only [Simple.tablesCost, Nat.sub_zero, Nat.zero_add, Nat.add_comm (_ * 500) 500]
  omega

end Fini

/-- **The costs of the queues are those of the faithful translation.**  From any
    states, the simplified `init_queues` adds 200 for each call of `mmap` and 13
    for each slot that the faithful one clears, and `uninit_queues` adds 500 for
    each call of `munmap` that `fini_queues` makes after it. -/
theorem queueCost_exact (n a : ℕ) (st : Simple.State) (st' : Trans.State) :
    let built := Trans.initQueues n a { st' with log := [] }
    let freed := finiQueues n a { built with log := [] }
    (Simple.initQueues n a queueSize st).total =
        st.total + (200 * mmaps built.log + 13 * clears built.log) ∧
      (Simple.uninitQueues n a st).total = st.total + 500 * munmaps freed.log := by
  intro built freed
  have hinit : builtWeight built = Simple.tablesCost 200 (200 + queueSize * 13) n a :=
    (trans_initQueues_adds n a { st' with log := [] } trivial).2.trans (Nat.zero_add _)
  have hfini : freedWeight freed = Simple.tablesCost 500 500 n a :=
    (finiQueues_adds (initQueues_built n a _) { built with log := [] } rfl).2.trans
      (Nat.zero_add _)
  refine ⟨?_, ?_⟩
  · rw [(simple_initQueues_adds n a queueSize st trivial).2, ← hinit]
    rfl
  · rw [(simple_uninitQueues_adds n a st trivial).2, ← hfini]
    rfl

end SpecPriv.Compare
