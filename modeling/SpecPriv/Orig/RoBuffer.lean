/-
  The buffer for the addresses of read-only pages.

  A page that was only read is not forwarded; its address goes into
  `ro_page_buffer`, and the whole array is forwarded as one chunk with check
  `CHECK_RO_PAGE` when it is full and at the end of every iteration.

  The runtime's communication functions are taken as what they log: `log`
  lists the calls a worker made, with copies of the memory they were given.

  * `entriesUnder n log`: the addresses that the chunks sent for iteration `n`
    carry;
  * `roEntries_exact`: over any run these are the addresses buffered in
    iteration `n`, and the index stays within the array;
  * `flushesClean_iff`: the flush that ends an iteration does not reset the
    index, so only runs that buffer nothing leave the buffer as it was.
-/
import SpecPriv.Lib.Batch
import SpecPriv.Orig.Page
import SpecPriv.Orig.Stage

namespace SpecPriv

def roEntryBufferSize : ℕ := pageSize / 8

structure ReadOnlyPageBuffer where
  data : Vector ℕ roEntryBufferSize
  index : ℕ

/-- The check that a message asks for. -/
inductive Check
  | free
  | required
  | roPage
deriving DecidableEq

/-- The memory that `forward_page` is given, with the copy it takes: a page,
    or the array of the read-only buffer. -/
inductive Source
  | page (addr : ℕ) (copy : PageBytes)
  | roPageBuffer (data : Vector ℕ roEntryBufferSize)

structure VerMallocInstance where
  ptr : BitVec 64
  size : UInt32
  heap : Int32

/-- Calls of the runtime's communication functions. -/
inductive Call
  | forwardPage (wid : Wid) (iter : ℕ) (src : Source) (check : Check)
  | forwardPacket (wid : Wid) (iter : ℕ) (ptr : ℕ) (value : BitVec 64) (size : ℕ) (check : Check)
  | broadcastMallocChunk (wid : Wid) (elem : Fin pageSize → VerMallocInstance) (size : ℕ)
  | broadcastEoi (wid : Wid) (ptr : ℕ) (size : ℕ) (value : ℕ)

/-- What a worker has to do with the other processes: its read-only buffer
    and the calls it made, in order. -/
structure Outbox where
  roPageBuffer : ReadOnlyPageBuffer
  log : List Call

namespace Outbox

def call (o : Outbox) (c : Call) : Outbox := { o with log := o.log ++ [c] }

end Outbox

def forwardPage (wid : Wid) (iter : ℕ) (src : Source) (check : Check) (o : Outbox) : Outbox :=
  o.call (.forwardPage wid iter src check)

def forwardPacket (wid : Wid) (iter : ℕ) (ptr : ℕ) (value : BitVec 64) (size : ℕ) (check : Check)
    (o : Outbox) : Outbox :=
  o.call (.forwardPacket wid iter ptr value size check)

def forwardRoPage (wid : Wid) (iter : ℕ) (o : Outbox) : Outbox :=
  if o.roPageBuffer.index ≠ 0 then
    let o := forwardPage wid iter (.roPageBuffer o.roPageBuffer.data) .roPage o
    { o with roPageBuffer := { o.roPageBuffer with data := Vector.replicate _ 0 } }
  else o

/-- The first half of `buffer_ro_page`: a full buffer is flushed and the index
    reset. -/
def makeRoom (wid : Wid) (iter : ℕ) (o : Outbox) : Outbox :=
  if o.roPageBuffer.index = roEntryBufferSize then
    let o := forwardRoPage wid iter o
    { o with roPageBuffer := { o.roPageBuffer with index := 0 } }
  else o

def bufferRoPage (wid : Wid) (iter : ℕ) (page : ℕ) (o : Outbox) : Outbox :=
  let o := makeRoom wid iter o
  let index := o.roPageBuffer.index
  { o with roPageBuffer := ⟨o.roPageBuffer.data.setIfInBounds index page, index + 1⟩ }

/-- The buffer as the program starts: zero-initialised. -/
def ReadOnlyPageBuffer.init : ReadOnlyPageBuffer := ⟨Vector.replicate _ 0, 0⟩

def Outbox.init : Outbox := ⟨.init, []⟩

/-! ## Runs -/

/-- The calls that end in the buffer. -/
inductive RoOp
  | buffer (iter : ℕ) (page : ℕ)
  | flush (iter : ℕ)

def RoOp.exec (wid : Wid) (o : Outbox) : RoOp → Outbox
  | buffer iter page => bufferRoPage wid iter page o
  | flush iter => forwardRoPage wid iter o

def execOps (wid : Wid) (ops : List RoOp) (o : Outbox) : Outbox := ops.foldl (RoOp.exec wid) o

/-- The calls of one iteration that buffers the given pages. -/
def iterationOps (it : ℕ × List ℕ) : List RoOp := it.2.map (.buffer it.1) ++ [.flush it.1]

/-- The calls of a run, given the number and the pages of each iteration. -/
def runOps (its : List (ℕ × List ℕ)) : List RoOp := its.flatMap iterationOps

def runRo (wid : Wid) (its : List (ℕ × List ℕ)) : Outbox := execOps wid (runOps its) .init

/-! ## What the chunks carry -/

/-- The array of a read-only chunk sent for iteration `n`. -/
def Call.chunkUnder (n : ℕ) : Call → Option (Vector ℕ roEntryBufferSize)
  | .forwardPage _ iter (.roPageBuffer data) .roPage => if iter = n then some data else none
  | _ => none

/-- The non-null entries of the read-only chunks sent for iteration `n`. -/
def entriesUnder (n : ℕ) (log : List Call) : List ℕ :=
  (log.filterMap (Call.chunkUnder n)).flatMap fun data => data.toList.filter (· ≠ 0)

@[simp] theorem entriesUnder_nil (n : ℕ) : entriesUnder n [] = [] := rfl

@[simp] theorem entriesUnder_append (n : ℕ) (l l' : List Call) :
    entriesUnder n (l ++ l') = entriesUnder n l ++ entriesUnder n l' := by
  simp [entriesUnder]

/-- The calls other than those that send a chunk of the buffer. -/
def directCalls (log : List Call) : List Call :=
  log.filter fun
    | .forwardPage _ _ (.roPageBuffer _) _ => false
    | _ => true

@[simp] theorem directCalls_append (l l' : List Call) :
    directCalls (l ++ l') = directCalls l ++ directCalls l' := by
  simp [directCalls]

/-- The addresses waiting in the buffer. -/
def ReadOnlyPageBuffer.Pending (b : ReadOnlyPageBuffer) (xs : List ℕ) : Prop :=
  Batch.Pending 0 b.data b.index xs ∧ ∀ x ∈ xs, x ≠ 0

theorem pending_init : ReadOnlyPageBuffer.init.Pending [] :=
  ⟨Batch.pending_replicate (Nat.zero_le _), by simp⟩

variable (wid : Wid) (iter : ℕ) {o : Outbox} {xs : List ℕ}

/-- The calls that a step appended to the log carry, for every iteration, what
    was waiting and is not any more: `sent ++ waiting' = waiting ++ new`. -/
structure Sends (o o' : Outbox) (xs new xs' : List ℕ) : Prop where
  pending : o'.roPageBuffer.Pending xs'
  calls : ∃ cs, o'.log = o.log ++ cs ∧ entriesUnder iter cs ++ xs' = xs ++ new ∧
    ∀ n ≠ iter, entriesUnder n cs = []

theorem forwardRoPage_sends (h : o.roPageBuffer.Pending xs) :
    Sends iter o (forwardRoPage wid iter o) xs [] [] := by
  unfold forwardRoPage
  split_ifs with hi
  · refine ⟨⟨Batch.pending_replicate h.1.index_le, by simp⟩, _, rfl, ?_, ?_⟩
    · simpa [entriesUnder, Call.chunkUnder] using h.1.filter_ne h.2
    · intro n hn
      simp [entriesUnder, Call.chunkUnder, hn.symm]
  · have hp := h.1
    rw [not_not.1 hi] at hp
    obtain rfl := hp.nil_of_zero
    exact ⟨h, [], by simp, by simp, by simp⟩

theorem forwardRoPage_index :
    (forwardRoPage wid iter o).roPageBuffer.index = o.roPageBuffer.index := by
  unfold forwardRoPage
  split_ifs <;> rfl

@[simp] theorem forwardRoPage_direct :
    directCalls (forwardRoPage wid iter o).log = directCalls o.log := by
  unfold forwardRoPage
  split_ifs
  · simp [forwardPage, Outbox.call, directCalls]
  · rfl

@[simp] theorem bufferRoPage_direct (page : ℕ) :
    directCalls (bufferRoPage wid iter page o).log = directCalls o.log := by
  simp only [bufferRoPage, makeRoom]
  split_ifs
  · exact forwardRoPage_direct wid iter
  · rfl

theorem makeRoom_index_lt (h : o.roPageBuffer.index ≤ roEntryBufferSize) :
    (makeRoom wid iter o).roPageBuffer.index < roEntryBufferSize := by
  unfold makeRoom
  split_ifs with hi
  · exact (by decide : 0 < roEntryBufferSize)
  · exact lt_of_le_of_ne h hi

theorem makeRoom_sends (h : o.roPageBuffer.Pending xs) :
    ∃ xs', Sends iter o (makeRoom wid iter o) xs [] xs' := by
  unfold makeRoom
  split_ifs with hi
  · obtain ⟨hp, hc⟩ := forwardRoPage_sends wid iter h
    refine ⟨[], ⟨⟨?_, by simp⟩, hc⟩⟩
    have hdata : (forwardRoPage wid iter o).roPageBuffer.data = Vector.replicate _ 0 := by
      unfold forwardRoPage
      rw [if_pos (by rw [hi]; decide)]
    simp only [hdata]
    exact Batch.pending_replicate (Nat.zero_le _)
  · exact ⟨xs, ⟨h, [], by simp, by simp, by simp⟩⟩

theorem bufferRoPage_sends {page : ℕ} (h : o.roPageBuffer.Pending xs) (hp : page ≠ 0) :
    ∃ xs', Sends iter o (bufferRoPage wid iter page o) xs [page] xs' := by
  obtain ⟨ys, hys, cs, hlog, hcs, hother⟩ := makeRoom_sends wid iter h
  have hlt := makeRoom_index_lt wid iter h.1.index_le
  refine ⟨ys ++ [page], ⟨hys.1.store hlt page, ?_⟩, cs, hlog, ?_, hother⟩
  · simpa [or_imp, forall_and] using ⟨hys.2, hp⟩
  · rw [← List.append_assoc, hcs, List.append_nil]

variable {iter} in
theorem Sends.trans {o' o'' : Outbox} {new xs' new' xs'' : List ℕ}
    (h : Sends iter o o' xs new xs') (h' : Sends iter o' o'' xs' new' xs'') :
    Sends iter o o'' xs (new ++ new') xs'' := by
  obtain ⟨-, cs, hlog, hcs, hother⟩ := h
  obtain ⟨hp, cs', hlog', hcs', hother'⟩ := h'
  refine ⟨hp, cs ++ cs', ?_, ?_, ?_⟩
  · rw [hlog', hlog, List.append_assoc]
  · rw [entriesUnder_append, List.append_assoc, hcs', ← List.append_assoc, hcs, List.append_assoc]
  · intro n hn
    rw [entriesUnder_append, hother n hn, hother' n hn, List.append_nil]

theorem bufferRoPages_sends : ∀ {ps : List ℕ} {o : Outbox} {xs : List ℕ},
    o.roPageBuffer.Pending xs → (∀ p ∈ ps, p ≠ 0) →
      ∃ xs', Sends iter o (execOps wid (ps.map (.buffer iter)) o) xs ps xs'
  | [], o, xs, h, _ => ⟨xs, h, [], by simp [execOps], by simp, by simp⟩
  | p :: ps, o, xs, h, hp => by
    obtain ⟨ys, hys⟩ := bufferRoPage_sends wid iter h (hp p List.mem_cons_self)
    have hps : ∀ q ∈ ps, q ≠ 0 := by
      intro q hq
      exact hp q (List.mem_cons_of_mem p hq)
    obtain ⟨zs, hzs⟩ := bufferRoPages_sends hys.pending hps
    exact ⟨zs, hys.trans hzs⟩

/-- An iteration sends the pages it buffered, under its number. -/
theorem iteration_sends {ps : List ℕ} (h : o.roPageBuffer.Pending []) (hp : ∀ p ∈ ps, p ≠ 0) :
    Sends iter o (execOps wid (iterationOps (iter, ps)) o) [] ps [] := by
  obtain ⟨ys, hys⟩ := bufferRoPages_sends wid iter h hp
  have := hys.trans (forwardRoPage_sends wid iter hys.pending)
  simpa [iterationOps, execOps, RoOp.exec] using this

theorem run_sends : ∀ {its : List (ℕ × List ℕ)} {o : Outbox}, o.roPageBuffer.Pending [] →
    (∀ it ∈ its, ∀ p ∈ it.2, p ≠ 0) →
      (execOps wid (runOps its) o).roPageBuffer.Pending [] ∧
      ∃ cs, (execOps wid (runOps its) o).log = o.log ++ cs ∧
        ∀ n, entriesUnder n cs = (its.filter (·.1 = n)).flatMap (·.2)
  | [], o, h, _ => ⟨h, [], by simp [runOps, execOps], by simp⟩
  | (iter, ps) :: its, o, h, hp => by
    obtain ⟨hp', cs, hlog, hcs, hother⟩ :=
      iteration_sends wid iter h (hp (iter, ps) List.mem_cons_self)
    have hits : ∀ it ∈ its, ∀ p ∈ it.2, p ≠ 0 := by
      intro it hit
      exact hp it (List.mem_cons_of_mem _ hit)
    obtain ⟨hp'', cs', hlog', hcs'⟩ := run_sends hp' hits
    have hrun : execOps wid (runOps ((iter, ps) :: its)) o =
        execOps wid (runOps its) (execOps wid (iterationOps (iter, ps)) o) := by
      simp [runOps, execOps]
    rw [hrun]
    refine ⟨hp'', cs ++ cs', ?_, ?_⟩
    · rw [hlog', hlog, List.append_assoc]
    · intro n
      rw [entriesUnder_append, hcs' n]
      by_cases hn : iter = n
      · subst hn
        simpa using hcs
      · simp [hother n (Ne.symm hn), hn]

/-- With distinct keys a key selects one entry. -/
theorem filter_key_eq : ∀ {its : List (ℕ × List ℕ)} {it : ℕ × List ℕ}, (its.map Prod.fst).Nodup →
    it ∈ its → its.filter (·.1 = it.1) = [it]
  | a :: its, it, hnd, hit => by
    obtain ⟨ha, hnd⟩ := List.nodup_cons.1 hnd
    rcases List.mem_cons.1 hit with rfl | hit
    · have hnone : its.filter (·.1 = it.1) = [] := by
        rw [List.filter_eq_nil_iff]
        intro b hb hab
        exact ha (List.mem_map.2 ⟨b, hb, of_decide_eq_true hab⟩)
      simp [hnone]
    · have hne : a.1 ≠ it.1 := by
        intro h
        exact ha (List.mem_map.2 ⟨it, hit, h.symm⟩)
      simpa [hne] using filter_key_eq hnd hit

theorem execOps_index_le (ops : List RoOp) (h : o.roPageBuffer.index ≤ roEntryBufferSize) :
    (execOps wid ops o).roPageBuffer.index ≤ roEntryBufferSize := by
  induction ops generalizing o with
  | nil => exact h
  | cons op ops ih =>
    refine ih ?_
    cases op with
    | buffer iter page => exact makeRoom_index_lt wid iter h
    | flush iter => exact (forwardRoPage_index wid iter).trans_le h

/-- **The read-only buffer loses, repeats and mixes up nothing.**  At every
    point of a run the index is in the array, also where an address is stored,
    and the chunks sent for an iteration carry the addresses buffered in it. -/
theorem roEntries_exact (its : List (ℕ × List ℕ)) (hp : ∀ it ∈ its, ∀ p ∈ it.2, p ≠ 0) :
    (∀ ops, ops <+: runOps its →
      (execOps wid ops .init).roPageBuffer.index ≤ roEntryBufferSize) ∧
    (∀ ops iter page, ops ++ [.buffer iter page] <+: runOps its →
      (makeRoom wid iter (execOps wid ops .init)).roPageBuffer.index < roEntryBufferSize) ∧
    (∀ n, entriesUnder n (runRo wid its).log = (its.filter (·.1 = n)).flatMap (·.2)) ∧
    ((its.map Prod.fst).Nodup → ∀ it ∈ its, entriesUnder it.1 (runRo wid its).log = it.2) := by
  have hrun : ∀ n, entriesUnder n (runRo wid its).log = (its.filter (·.1 = n)).flatMap (·.2) := by
    obtain ⟨-, cs, hlog, hcs⟩ := run_sends wid pending_init hp (o := .init)
    intro n
    rw [runRo, hlog, ← hcs n]
    rfl
  have hle (ops : List RoOp) := execOps_index_le wid ops (Nat.zero_le _) (o := .init)
  refine ⟨?_, ?_, hrun, ?_⟩
  · intro ops _
    exact hle ops
  · intro ops iter _ _
    exact makeRoom_index_lt wid iter (hle ops)
  · intro hnd it hit
    rw [hrun, filter_key_eq hnd hit]
    simp

theorem roEntries_exact_two :
    (∀ ops, ops <+: runOps [(0, [4096, 8192]), (1, [4096])] →
      (execOps 0 ops .init).roPageBuffer.index ≤ roEntryBufferSize) ∧
    (∀ ops iter page, ops ++ [.buffer iter page] <+: runOps [(0, [4096, 8192]), (1, [4096])] →
      (makeRoom 0 iter (execOps 0 ops .init)).roPageBuffer.index < roEntryBufferSize) ∧
    (∀ n, entriesUnder n (runRo 0 [(0, [4096, 8192]), (1, [4096])]).log =
      ([(0, [4096, 8192]), (1, [4096])].filter (·.1 = n)).flatMap (·.2)) ∧
    (([(0, [4096, 8192]), (1, [4096])].map Prod.fst).Nodup →
      ∀ it ∈ [(0, [4096, 8192]), (1, [4096])],
        entriesUnder it.1 (runRo 0 [(0, [4096, 8192]), (1, [4096])]).log = it.2) :=
  roEntries_exact 0 _ (by decide)

/-! ## The flush at the end of an iteration -/

/-- `n` addresses in chunks of the buffer's size, each packed from entry `0`. -/
def PackedChunks (ps : List ℕ) (chunks : List (Vector ℕ roEntryBufferSize)) : Prop :=
  chunks.length = (ps.length + (roEntryBufferSize - 1)) / roEntryBufferSize ∧
  ∀ i (hi : i < chunks.length), ∃ r, chunks[i].toList =
    (ps.drop (roEntryBufferSize * i)).take roEntryBufferSize ++ List.replicate r 0

/-- Every iteration of the run sends its addresses in packed chunks and leaves
    the buffer as the program starts with it. -/
def FlushesClean (its : List (ℕ × List ℕ)) : Prop :=
  ∀ pre it post, its = pre ++ it :: post →
    (∃ chunks, PackedChunks it.2 chunks ∧ (runRo wid (pre ++ [it])).log = (runRo wid pre).log ++
      chunks.map fun data => .forwardPage wid it.1 (.roPageBuffer data) .roPage) ∧
    (runRo wid (pre ++ [it])).roPageBuffer = .init

theorem runRo_append (pre its : List (ℕ × List ℕ)) :
    runRo wid (pre ++ its) = execOps wid (runOps its) (runRo wid pre) := by
  simp [runRo, runOps, execOps]

theorem bufferRoPage_index_pos (page : ℕ) :
    0 < (bufferRoPage wid iter page o).roPageBuffer.index :=
  Nat.succ_pos _

/-- An iteration that buffers a page leaves the index where it got to: the
    flush that ends the iteration does not reset it. -/
theorem iteration_index_pos : ∀ (ps : List ℕ) (o : Outbox), ps ≠ [] →
    0 < (execOps wid (iterationOps (iter, ps)) o).roPageBuffer.index
  | [p], o, _ => by
    have h := bufferRoPage_index_pos wid iter p (o := o)
    simpa [iterationOps, execOps, RoOp.exec, forwardRoPage_index] using h
  | p :: q :: ps, o, _ => by
    have h := iteration_index_pos (q :: ps) (bufferRoPage wid iter p o) (by simp)
    simpa [iterationOps, execOps, RoOp.exec] using h

/-- Iterations that buffer nothing, from the initial buffer, do nothing. -/
theorem run_of_empty {its : List (ℕ × List ℕ)} (h : ∀ it ∈ its, it.2 = []) :
    runRo wid its = .init := by
  induction its with
  | nil => rfl
  | cons it its ih =>
    have hit : iterationOps it = [.flush it.1] := by
      simp [iterationOps, h it List.mem_cons_self]
    have hfirst : execOps wid (iterationOps it) .init = .init := by
      rw [hit]; rfl
    have hrun : runRo wid (it :: its) =
        execOps wid (runOps its) (execOps wid (iterationOps it) .init) := by
      simp [runRo, runOps, execOps]
    rw [hrun, hfirst]
    refine ih ?_
    intro it' hit'
    exact h it' (List.mem_cons_of_mem _ hit')

theorem FlushesClean.empty {its : List (ℕ × List ℕ)} (h : FlushesClean wid its) :
    ∀ it ∈ its, it.2 = [] := by
  intro it hit
  obtain ⟨pre, post, rfl⟩ := List.append_of_mem hit
  by_contra hne
  have hbuf := (h pre it post rfl).2
  have hone : runOps [it] = iterationOps it := by simp [runOps]
  rw [runRo_append, hone] at hbuf
  have hpos : 0 < (execOps wid (iterationOps it) (runRo wid pre)).roPageBuffer.index :=
    iteration_index_pos wid it.1 _ _ hne
  rw [hbuf] at hpos
  exact lt_irrefl 0 hpos

/-- **When every flush leaves the buffer empty**: exactly in the runs that
    buffer no page. -/
theorem flushesClean_iff (its : List (ℕ × List ℕ)) :
    FlushesClean wid its ↔ ∀ it ∈ its, it.2 = [] := by
  constructor
  · exact FlushesClean.empty wid
  · rintro h pre it post rfl
    have hpre : ∀ it' ∈ pre, it'.2 = [] := by
      intro it' hit'
      exact h it' (List.mem_append_left _ hit')
    have hit : it.2 = [] := h it (by simp)
    have hboth : ∀ it' ∈ pre ++ [it], it'.2 = [] := by
      intro it' hit'
      rcases List.mem_append.1 hit' with h' | h'
      · exact hpre it' h'
      · rwa [List.mem_singleton.1 h']
    rw [run_of_empty wid hpre, run_of_empty wid hboth]
    refine ⟨⟨[], ⟨?_, by simp⟩, rfl⟩, rfl⟩
    rw [hit]
    rfl

/-- One page in the first iteration: the flush leaves the index at `1`, and
    the second iteration, which buffers nothing, sends a chunk of nulls. -/
theorem flushesClean_not_one : ¬ FlushesClean 0 [(0, [4096]), (1, [])] := by
  intro h
  simpa using FlushesClean.empty 0 h (0, [4096]) (by simp)

example : (runRo 0 [(0, [4096]), (1, [])]).log.length = 2 := by decide

end SpecPriv
