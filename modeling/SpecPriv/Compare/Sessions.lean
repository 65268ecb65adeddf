/-
  Invocations one after the other.

  A program that comes to its parallel region several times makes the calls of
  an invocation each time.  What `begin_invocation` maps it maps again, and the
  pointers to the regions of the last invocation are overwritten.

  * `Releases f`: `f` only adds to the log, and maps nothing;
  * `invocation_regions`: of the regions that an invocation maps all are
    unmapped at its end, each once, but for the pool of the commit process, and
    the chunk pools of the workers with the length of a packet pool;
  * `session_leaks`: so after `k` invocations `k` pools of the commit process are
    still mapped, and the rest of every chunk pool.
-/
import SpecPriv.Compare.InvocationCost
import SpecPriv.Compare.Release
import SpecPriv.Trans.Iterations
import SpecPriv.Trans.Pointers

namespace SpecPriv.Compare

open Loop Regions Heap Meter Stopping SpecPriv.Trans
open scoped List

variable {h : Heap} {Q Q' : ℕ → ℕ → Prop} {D D₀ : List ℕ → Prop} {st : State} {π : List ℕ}
  {n a start : ℕ} {g : Global}

/-- An invocation: its beginning, any calls, and its end. -/
def invocation (c : Trans.Config) (env : Env) (fuel : ℕ) (st : State) (calls : List MainCall) :
    Except State State := do
  let st ← runMain c env fuel calls (Trans.beginInvocation c st)
  .ok (Trans.endInvocation c st)

/-- Invocations one after the other, each with its calls. -/
def session (c : Trans.Config) (env : Env) (fuel : ℕ) (invocations : List (List MainCall))
    (st : State) : Except State State :=
  invocations.foldlM (invocation c env fuel) st

/-! ## The log -/

/-- The state with an older log. -/
def after (log : List Event) (st : State) : State := { st with log := st.log ++ log }

@[simp] theorem after_heap (log : List Event) (st : State) : (after log st).heap = st.heap := rfl

@[simp] theorem after_log (log : List Event) (st : State) : (after log st).log = st.log ++ log :=
  rfl

/-- `f` adds to the log, whatever is in it, and maps nothing. -/
structure Releases (f : State → State) : Prop where
  after : ∀ log st, f (after log st) = Compare.after log (f st)
  heap : ∀ st, (f st).heap = st.heap
  mapped : ∀ st, regionsMapped (f st).log = regionsMapped st.log

namespace Releases

variable {f f' : State → State}

theorem comp (hf : Releases f) (hf' : Releases f') : Releases fun st => f' (f st) where
  after log st := by rw [hf.after, hf'.after]
  heap st := by rw [hf'.heap, hf.heap]
  mapped st := by rw [hf'.mapped, hf.mapped]

theorem forLoop {body : ℕ → State → State} (hbody : ∀ i, Releases (body i))
    (start stop step : ℕ) : Releases (Loop.forLoop start stop step body) where
  after log st := (forLoop_map (Compare.after log) (fun i st => ((hbody i).after log st).symm)
    start stop step st).symm
  heap := forLoop_same State.heap (fun i => (hbody i).heap) start stop step
  mapped := forLoop_same (fun st : State => regionsMapped st.log) (fun i => (hbody i).mapped)
    start stop step

theorem munmapTable (g : Global) (length : ℕ) :
    Releases fun st => st.munmap (st.global g) length :=
  ⟨fun _ _ => rfl, fun _ => rfl, fun _ => rfl⟩

theorem unmapAt (g : Global) (i length : ℕ) : Releases (Trans.unmapAt g i length) :=
  ⟨fun _ _ => rfl, fun _ => rfl, fun _ => rfl⟩

theorem freeIfCreated (g : Global) (i j : ℕ) : Releases (Trans.freeIfCreated g i j) := by
  refine ⟨?_, ?_, ?_⟩
  · intro log st
    rw [freeIfCreated_eq, freeIfCreated_eq, after_heap]
    by_cases h0 : st.heap.follow [j, i, g.index] ≠ 0
    · rw [if_pos h0, if_pos h0]
      rfl
    · rw [if_neg h0, if_neg h0]
      rfl
  · intro st
    rw [freeIfCreated_eq]
    split_ifs <;> rfl
  · intro st
    rw [freeIfCreated_eq]
    split_ifs <;> rfl

theorem finiPackets (n : ℕ) : Releases (Trans.finiPackets n) := by
  have hpools : Releases (Loop.forLoop 0 n 1 fun i st =>
      Trans.unmapAt .packetChunkBegins i (sizeofPacket * packetPoolSize)
        (Trans.unmapAt .packetBegins i (sizeofPacket * packetPoolSize) st)) :=
    forLoop (fun i => (unmapAt .packetBegins i _).comp (unmapAt .packetChunkBegins i _)) _ _ _
  have htable (g : Global) : Releases fun st => st.munmap (st.global g) (sizeofPtr * n) :=
    munmapTable g _
  exact (((((hpools.comp (htable .packetBegins)).comp (htable .packetEnds)).comp
    (htable .packetNexts)).comp (htable .packetChunkBegins)).comp
    (htable .packetChunkEnds)).comp (htable .packetChunkNexts)

theorem finiQueues (n a : ℕ) : Releases (Trans.finiQueues n a) := by
  have hgrid (g : Global) (stop length : ℕ) : Releases (Loop.forLoop 0 n 1 fun i st =>
      Trans.unmapAt g i length (Loop.forLoop 0 stop 1 (Trans.freeIfCreated g i) st)) :=
    forLoop (fun i => (forLoop (freeIfCreated g i) _ _ _).comp (unmapAt g i length)) _ _ _
  have hrow (g : Global) (stop : ℕ) :
      Releases (Loop.forLoop 0 stop 1 fun i => Trans.unmapAt g i sizeofQueue) :=
    forLoop (fun i => unmapAt g i sizeofQueue) _ _ _
  exact ((((((hgrid .ucvfQueues n _).comp (munmapTable .ucvfQueues _)).comp
    (hgrid .queues a _)).comp (munmapTable .queues _)).comp ((hrow .commitQueues a).comp
    (munmapTable .commitQueues _))).comp (hrow .reverseCommitQueues n)).comp
    (munmapTable .reverseCommitQueues _)

theorem endInvocation (c : Trans.Config) : Releases (Trans.endInvocation c) :=
  ((munmapTable .pcb sizeofPcb).comp (finiPackets c.numAllWorkers)).comp
    (finiQueues c.numWorkers c.numAuxWorkers)

end Releases

/-! ## What `begin_invocation` maps -/

/-- The regions mapped so far are those from the first one on, latest first. -/
def Ranged (st : State) : Prop :=
  (regionsMapped st.log).map Prod.fst = (List.range' 2 (st.heap.next - 2)).reverse

theorem Ranged.mem_iff (h : Ranged st) (p : ℕ) :
    p ∈ (regionsMapped st.log).map Prod.fst ↔ 2 ≤ p ∧ p < st.heap.next := by
  have hgt := st.heap.next_gt
  rw [h, List.mem_reverse, List.mem_range'_1]
  omega

theorem Ranged.nodup (h : Ranged st) : ((regionsMapped st.log).map Prod.fst).Nodup := by
  rw [h, List.nodup_reverse]
  exact List.nodup_range'

theorem swQueueReset_mapped (queue : ℕ) (st : State) :
    regionsMapped (Trans.swQueueReset queue st).log = regionsMapped st.log := by
  have hclear (j : ℕ) (st : State) :
      regionsMapped (clearSlot queue j st).log = regionsMapped st.log := rfl
  exact forLoop_same (fun st : State => regionsMapped st.log) hclear 0 queueSize 1 _

section Keeps

/- What `mmap` keeps of the heap and the regions mapped. -/
variable {P : Heap → List (ℕ × ℕ) → Prop}
  (hmmap : ∀ b i length h rs, P h rs → P (h.mapAt b i) ((h.next, length) :: rs))
include hmmap

theorem initQueues_mapped_keeps (n a : ℕ) (hst : P st.heap (regionsMapped st.log)) :
    P (Trans.initQueues n a st).heap (regionsMapped (Trans.initQueues n a st).log) := by
  refine initQueues_keeps (P := fun st => P st.heap (regionsMapped st.log)) ?_ ?_ n a hst
  · intro b i length st hst
    exact hmmap b i length _ _ hst
  · intro queue st hst
    rwa [swQueueReset_heap, swQueueReset_mapped]

theorem initPackets_mapped_keeps (n : ℕ) (hst : P st.heap (regionsMapped st.log)) :
    P (Trans.initPackets n st).heap (regionsMapped (Trans.initPackets n st).log) := by
  refine initPackets_keeps (P := fun st => P st.heap (regionsMapped st.log)) ?_ ?_ ?_ n hst
  · intro b i length st hst
    exact hmmap b i length _ _ hst
  · intro _ _ hst
    exact hst
  · intro _ hst
    exact hst

/-- What is kept after `init_packets` is kept by all of `begin_invocation`. -/
theorem beginInvocation_keeps (c : Trans.Config)
    (hpackets : P (Trans.initPackets c.numAllWorkers st).heap
      (regionsMapped (Trans.initPackets c.numAllWorkers st).log)) :
    P (Trans.beginInvocation c st).heap (regionsMapped (Trans.beginInvocation c st).log) := by
  have hqueues := initQueues_mapped_keeps hmmap c.numWorkers c.numAuxWorkers hpackets
  refine hmmap globals Global.pcb.index sizeofPcb _ _ ?_
  rwa [initHeaps_same State.heap fun _ _ _ _ => rfl, initHeaps_same State.log fun _ _ _ _ => rfl]

end Keeps

/-- A region that is mapped before stays in the log. -/
theorem beginInvocation_mem (c : Trans.Config) {r : ℕ × ℕ} (hr : r ∈ regionsMapped st.log) :
    r ∈ regionsMapped (Trans.beginInvocation c st).log := by
  have hmmap : ∀ (b i length : ℕ) (h : Heap) (rs : List (ℕ × ℕ)), r ∈ rs →
      r ∈ (h.next, length) :: rs := fun _ _ _ _ _ hrs => List.mem_cons_of_mem _ hrs
  exact beginInvocation_keeps (P := fun _ rs => r ∈ rs) hmmap c
    (initPackets_mapped_keeps (P := fun _ rs => r ∈ rs) hmmap c.numAllWorkers hr)

/-- The regions mapped so far stay those from the first one on. -/
theorem Ranged.beginInvocation (h : Ranged st) (c : Trans.Config) :
    Ranged (Trans.beginInvocation c st) := by
  let P (h : Heap) (rs : List (ℕ × ℕ)) : Prop :=
    rs.map Prod.fst = (List.range' 2 (h.next - 2)).reverse
  have hmmap : ∀ b i length h rs, P h rs → P (h.mapAt b i) ((h.next, length) :: rs) := by
    intro b i length h rs hrs
    have hgt := h.next_gt
    have hnext : (h.mapAt b i).next - 2 = h.next - 2 + 1 := by
      show h.next + 1 - 2 = _
      omega
    have hlast : 2 + (h.next - 2) = h.next := by omega
    show h.next :: rs.map Prod.fst = _
    rw [hrs, hnext, List.range'_1_concat, List.reverse_append, hlast]
    rfl
  exact beginInvocation_keeps hmmap c (initPackets_mapped_keeps hmmap c.numAllWorkers h)

section Imp

variable {h' : Heap} (hQ : ∀ p length, Q p length → Q' p length)
include hQ

theorem TableMapped.imp {k lengthT lengthR : ℕ}
    (hm : TableMapped h Q k n lengthT lengthR)
    (hsame : ∀ π, π.getLast? = some k → h'.follow π = h.follow π) :
    TableMapped h' Q' k n lengthT lengthR := by
  refine ⟨?_, ?_⟩
  · rw [hsame _ rfl]
    exact ⟨hm.table.1, hQ _ _ hm.table.2⟩
  · intro i hi
    rw [hsame _ rfl]
    exact ⟨(hm.row i hi).1, hQ _ _ (hm.row i hi).2⟩

theorem QueuesMapped.imp (hm : QueuesMapped n a h Q)
    (hsame : ∀ π, ∀ g ∈ queueGlobals, π.getLast? = some g.index → h'.follow π = h.follow π) :
    QueuesMapped n a h' Q' := by
  have hucvf := fun π => hsame π .ucvfQueues (by decide)
  have hqueues := fun π => hsame π .queues (by decide)
  refine ⟨hm.ucvf.imp hQ hucvf, ?_, hm.queues.imp hQ hqueues, ?_,
    hm.commit.imp hQ fun π => hsame π .commitQueues (by decide),
    hm.reverse.imp hQ fun π => hsame π .reverseCommitQueues (by decide)⟩
  · intro i hi j
    rw [hucvf _ rfl]
    exact fun h0 => hQ _ _ (hm.ucvfQueue i hi j h0)
  · intro i hi j
    rw [hqueues _ rfl]
    exact fun h0 => hQ _ _ (hm.queuesQueue i hi j h0)

end Imp

/-- The pools of chunks. -/
def chunkPools (n : ℕ) (h : Heap) : List ℕ :=
  (List.range n).map fun x => h.follow [x, Global.packetChunkBegins.index]

/-- The length with which a region from `start` on is to be unmapped: the one it
    was mapped with, except that a pool of chunks is taken for one of packets. -/
def Returned (start : ℕ) (chunks : List ℕ) (rs : List (ℕ × ℕ)) (p length : ℕ) : Prop :=
  start ≤ p ∧ if p ∈ chunks then length = sizeofPacket * packetPoolSize else (p, length) ∈ rs

/-- Other paths lead to other regions. -/
theorem not_mem_chunkPools (h0 : h.follow π ≠ 0)
    (hπ : ∀ x, π ≠ [x, Global.packetChunkBegins.index]) (n : ℕ) : h.follow π ∉ chunkPools n h := by
  intro hmem
  obtain ⟨x, -, heq⟩ := List.mem_map.1 hmem
  exact hπ x (h.follow_inj h0 heq.symm)

/-- What `begin_invocation` leaves for `end_invocation` to release. -/
abbrev Owed (c : Trans.Config) (st : State) : ℕ → ℕ → Prop :=
  Returned st.heap.next (chunkPools c.numAllWorkers (Trans.beginInvocation c st).heap)
    (regionsMapped (Trans.beginInvocation c st).log)

/-- The pools of chunks are there before `init_queues` is called. -/
theorem chunkPools_lt (c : Trans.Config) (st : State) {p : ℕ}
    (hp : p ∈ chunkPools c.numAllWorkers (Trans.beginInvocation c st).heap) :
    p < (Trans.initPackets c.numAllWorkers st).heap.next := by
  obtain ⟨x, -, rfl⟩ := List.mem_map.1 hp
  have hlast : ∀ g ∈ queueGlobals,
      [x, Global.packetChunkBegins.index].getLast? ≠ some g.index := by
    simp only [List.getLast?_cons_cons, List.getLast?_singleton]
    decide
  have hpcb : [x, Global.packetChunkBegins.index].getLast? ≠ some Global.pcb.index := by
    simp only [List.getLast?_cons_cons, List.getLast?_singleton]
    decide
  rw [beginInvocation_follow c st hpcb, initQueues_follow _ _ _ hlast]
  exact (Trans.initPackets c.numAllWorkers st).heap.lt_next _ _

/-- The tables of the queues lead to regions that `begin_invocation` maps. -/
theorem beginInvocation_queuesMapped (c : Trans.Config) (st : State) :
    QueuesMapped c.numWorkers c.numAuxWorkers (Trans.beginInvocation c st).heap (Owed c st) := by
  have hle := (initPackets_reaches c.numAllWorkers st).start_le
  have hm := initQueues_mapped c.numWorkers c.numAuxWorkers (Trans.initPackets c.numAllWorkers st)
  refine hm.imp ?_ ?_
  · rintro p length ⟨hp, hmem⟩
    have hnot : p ∉ chunkPools c.numAllWorkers (Trans.beginInvocation c st).heap :=
      fun hchunk => (chunkPools_lt c st hchunk).not_ge hp
    refine ⟨hle.trans hp, ?_⟩
    rw [if_neg hnot, mem_regionsMapped]
    unfold Trans.beginInvocation
    rw [State.mmap_log, initHeaps_same State.log fun _ _ _ _ => rfl]
    exact List.mem_cons_of_mem _ hmem
  · intro π g hg hlast
    refine beginInvocation_follow c st ?_
    rw [hlast]
    intro heq
    obtain rfl := Global.index_inj (Option.some.inj heq)
    revert hg
    decide

/-! ## What `end_invocation` unmaps -/

/-- The PCB, and the tables and pools of the packets, can be released with the
    lengths that `end_invocation` gives. -/
structure TablesMapped (n : ℕ) (h : Heap) (Q : ℕ → ℕ → Prop) : Prop where
  table_ne : ∀ g ∈ otherGlobals, h.follow [g.index] ≠ 0
  table : ∀ g ∈ otherGlobals, Q (h.follow [g.index]) (tableSize n g)
  row_ne : ∀ g ∈ otherGlobals, ∀ x < packetRows n g, h.follow [x, g.index] ≠ 0
  row : ∀ g ∈ otherGlobals, ∀ x < packetRows n g,
    Q (h.follow [x, g.index]) (sizeofPacket * packetPoolSize)

theorem beginInvocation_tablesMapped (c : Trans.Config) (st : State) :
    TablesMapped c.numAllWorkers (Trans.beginInvocation c st).heap (Owed c st) := by
  have hgt := st.heap.next_gt
  have htable (g : Global) (hg : g ∈ otherGlobals) :=
    beginInvocation_paths (π := [g.index]) c st ⟨g, hg, Or.inl ⟨rfl, rfl⟩⟩
  have hrow (g : Global) (hg : g ∈ otherGlobals) (x : ℕ) (hx : x < packetRows c.numAllWorkers g) :=
    beginInvocation_paths (π := [x, g.index]) c st ⟨g, hg, Or.inr ⟨x, hx, rfl, rfl⟩⟩
  have htable_ne (g : Global) (hg : g ∈ otherGlobals) :
      (Trans.beginInvocation c st).heap.follow [g.index] ≠ 0 :=
    ((Nat.zero_lt_of_lt hgt).trans_le (htable g hg).1).ne'
  have hrow_ne (g : Global) (hg : g ∈ otherGlobals) (x : ℕ)
      (hx : x < packetRows c.numAllWorkers g) :
      (Trans.beginInvocation c st).heap.follow [x, g.index] ≠ 0 :=
    ((Nat.zero_lt_of_lt hgt).trans_le (hrow g hg x hx).1).ne'
  refine ⟨htable_ne, ?_, hrow_ne, ?_⟩
  · intro g hg
    refine ⟨(htable g hg).1, ?_⟩
    rw [if_neg (not_mem_chunkPools (htable_ne g hg) (fun x => by simp) _)]
    exact (htable g hg).2
  · intro g hg x hx
    refine ⟨(hrow g hg x hx).1, ?_⟩
    split_ifs with hchunk
    · rfl
    · have hne : g ≠ .packetChunkBegins := by
        rintro rfl
        exact hchunk (List.mem_map.2 ⟨x, List.mem_range.2 hx, rfl⟩)
      have hpool : poolSize g = sizeofPacket * packetPoolSize := by
        cases g with
        | packetChunkBegins => exact absurd rfl hne
        | _ => rfl
      rw [← hpool]
      exact (hrow g hg x hx).2

section Tables

variable {i : ℕ}

/-- A table that is not released yet. -/
theorem Released.table (hm : TablesMapped n h Q) (hg : g ∈ otherGlobals) (hnot : ¬ D [g.index])
    (hr : Released h Q D st) :
    Released h Q (fun π => D π ∨ π = [g.index]) (st.munmap (st.global g) (tableSize n g)) := by
  have hlive : Live h Q D [g.index] (tableSize n g) := ⟨hm.table_ne g hg, hm.table g hg, hnot⟩
  have hptr : st.global g = h.follow [g.index] := by
    rw [← hr.heap_eq]
    rfl
  rw [hptr]
  exact hr.munmap hlive (fun _ => Or.inl) (Or.inr rfl)

/-- A row that is not released yet, of a table that is not either. -/
theorem Released.row (hm : TablesMapped n h Q) (hg : g ∈ otherGlobals) (hi : i < packetRows n g)
    (htable : ¬ D [g.index]) (hnot : ¬ D [i, g.index]) (hr : Released h Q D st) :
    Released h Q (fun π => D π ∨ π = [i, g.index])
      (Trans.unmapAt g i (sizeofPacket * packetPoolSize) st) := by
  have hloaded := hr.load ⟨hm.table_ne g hg, hm.table g hg, htable⟩ i
  obtain rfl := hr.heap_eq
  rw [unmapAt_eq]
  exact hloaded.munmap ⟨hm.row_ne g hg i hi, hm.row g hg i hi, hnot⟩ (fun _ => Or.inl)
    (Or.inr rfl)

end Tables

/-- The paths that `fini_packets` has released after some rounds of its loop,
    and some tables. -/
def PacketsDone (D : List ℕ → Prop) (i : ℕ) (gs : List Global) (π : List ℕ) : Prop :=
  (D π ∨ ∃ x < i, π = [x, Global.packetBegins.index] ∨ π = [x, Global.packetChunkBegins.index]) ∨
    ∃ g ∈ gs, π = [g.index]

theorem not_packetsDone_table {gs : List Global} (hD : Untouched D g.index) (hg : g ∉ gs) (i : ℕ) :
    ¬ PacketsDone D i gs [g.index] := by
  rintro ((hπ | ⟨x, -, heq | heq⟩) | ⟨g', hg', heq⟩)
  · exact hD _ hπ rfl
  · simp at heq
  · simp at heq
  · obtain rfl := Global.index_inj (List.singleton_inj.1 heq)
    exact hg hg'

theorem not_packetsDone_row (hD : Untouched D g.index) (i : ℕ) :
    ¬ PacketsDone D i [] [i, g.index] := by
  rintro ((hπ | ⟨x, hx, heq | heq⟩) | ⟨g', hg', -⟩)
  · exact hD _ hπ rfl
  · exact hx.ne (List.cons.inj heq).1.symm
  · exact hx.ne (List.cons.inj heq).1.symm
  · cases hg'

/-- One round of the loop of `fini_packets`. -/
theorem Released.pools {i : ℕ} (hm : TablesMapped n h Q) (hi : i < n)
    (hbegins : Untouched D Global.packetBegins.index)
    (hchunks : Untouched D Global.packetChunkBegins.index)
    (hr : Released h Q (PacketsDone D i []) st) :
    Released h Q (PacketsDone D (i + 1) [])
      (Trans.unmapAt .packetChunkBegins i (sizeofPacket * packetPoolSize)
        (Trans.unmapAt .packetBegins i (sizeofPacket * packetPoolSize) st)) := by
  have hfirst := hr.row hm (g := .packetBegins) (by decide) hi
    (not_packetsDone_table hbegins (by decide) i) (not_packetsDone_row hbegins i)
  have hsecond := hfirst.row hm (g := .packetChunkBegins) (by decide) hi ?_ ?_
  · refine hsecond.weaken ?_
    rintro π ((((hπ | ⟨x, hx, hπ⟩) | hπ) | hπ) | hπ)
    · exact Or.inl (Or.inl hπ)
    · exact Or.inl (Or.inr ⟨x, hx.trans (Nat.lt_succ_self i), hπ⟩)
    · exact Or.inr hπ
    · exact Or.inl (Or.inr ⟨i, Nat.lt_succ_self i, Or.inl hπ⟩)
    · exact Or.inl (Or.inr ⟨i, Nat.lt_succ_self i, Or.inr hπ⟩)
  · rintro (hdone | heq)
    · exact not_packetsDone_table hchunks (by decide) i hdone
    · simp at heq
  · rintro (hdone | heq)
    · exact not_packetsDone_row hchunks i hdone
    · simp [Global.index] at heq

/-- `fini_packets` releases tables and pools of `init_packets`, but not the
    pool of the commit process. -/
theorem Released.finiPackets (hm : TablesMapped n h Q)
    (hD : ∀ g ∈ packetGlobals, Untouched D g.index) (hr : Released h Q D st) :
    Released h Q (fun π => D π ∨ ∃ g ∈ packetGlobals, g ≠ .commitProcessPacketBegin ∧
      π.getLast? = some g.index) (Trans.finiPackets n st) := by
  have hstart : Released h Q (PacketsDone D 0 []) st := hr.weaken fun _ hπ => Or.inl (Or.inl hπ)
  have hloop : Released h Q (PacketsDone D n []) (Loop.forLoop 0 n 1 (fun i st =>
      Trans.unmapAt .packetChunkBegins i (sizeofPacket * packetPoolSize)
        (Trans.unmapAt .packetBegins i (sizeofPacket * packetPoolSize) st)) st) := by
    unfold Loop.forLoop
    rw [rounds_one, Nat.sub_zero]
    refine Loop.forN_induct (fun i => Released h Q (PacketsDone D i [])) hstart ?_
    intro i hi st hst
    rw [Nat.zero_add, Nat.one_mul]
    exact hst.pools hm hi (hD _ (by decide)) (hD _ (by decide))
  have htable {gs : List Global} {g : Global} {st' : State}
      (hr' : Released h Q (PacketsDone D n gs) st') (hg : g ∈ packetGlobals)
      (hnew : g ∉ gs) :
      Released h Q (PacketsDone D n (g :: gs)) (st'.munmap (st'.global g) (tableSize n g)) := by
    have hreleased := hr'.table hm (List.mem_cons_of_mem _ hg)
      (not_packetsDone_table (hD g hg) hnew n)
    refine hreleased.weaken ?_
    rintro π ((hπ | ⟨g', hg', rfl⟩) | rfl)
    · exact Or.inl hπ
    · exact Or.inr ⟨g', List.mem_cons_of_mem _ hg', rfl⟩
    · exact Or.inr ⟨g, List.mem_cons_self, rfl⟩
  have hbegins := htable hloop (g := .packetBegins) (by decide) (by decide)
  have hends := htable hbegins (g := .packetEnds) (by decide) (by decide)
  have hnexts := htable hends (g := .packetNexts) (by decide) (by decide)
  have hchunkBegins := htable hnexts (g := .packetChunkBegins) (by decide) (by decide)
  have hchunkEnds := htable hchunkBegins (g := .packetChunkEnds) (by decide) (by decide)
  have hchunkNexts := htable hchunkEnds (g := .packetChunkNexts) (by decide) (by decide)
  refine hchunkNexts.weaken ?_
  rintro π ((hπ | ⟨x, -, rfl | rfl⟩) | ⟨g, hg, rfl⟩)
  · exact Or.inl hπ
  · exact Or.inr ⟨.packetBegins, by decide, by decide, rfl⟩
  · exact Or.inr ⟨.packetChunkBegins, by decide, by decide, rfl⟩
  · refine Or.inr ⟨g, ?_, ?_, rfl⟩
    · revert hg
      cases g <;> decide
    · rintro rfl
      revert hg
      decide

/-- `fini_queues` releases what the global variables of `init_queues` lead to. -/
theorem Released.finiQueues (hm : QueuesMapped n a h Q)
    (hD : ∀ g ∈ queueGlobals, Untouched D g.index) (hr : Released h Q D st) :
    Released h Q (fun π => D π ∨ ∃ g ∈ queueGlobals, π.getLast? = some g.index)
      (Trans.finiQueues n a st) := by
  have hucvf := hr.grid n hm.ucvf hm.ucvfQueue (hD _ (by decide))
  have hqueues := hucvf.grid a hm.queues hm.queuesQueue ((hD _ (by decide)).tableDone (by decide))
  have hcommit := hqueues.queueTable hm.commit
    (((hD _ (by decide)).tableDone (by decide)).tableDone (by decide))
  have hreverse := hcommit.queueTable hm.reverse
    ((((hD _ (by decide)).tableDone (by decide)).tableDone (by decide)).tableDone (by decide))
  refine hreverse.weaken ?_
  rintro π ((((hπ | hlast) | hlast) | hlast) | hlast)
  · exact Or.inl hπ
  · exact Or.inr ⟨_, by decide, hlast⟩
  · exact Or.inr ⟨_, by decide, hlast⟩
  · exact Or.inr ⟨_, by decide, hlast⟩
  · exact Or.inr ⟨_, by decide, hlast⟩

/-- The paths that `end_invocation` releases. -/
def InvocationDone (π : List ℕ) : Prop :=
  (π = [Global.pcb.index] ∨ ∃ g ∈ packetGlobals, g ≠ .commitProcessPacketBegin ∧
    π.getLast? = some g.index) ∨ ∃ g ∈ queueGlobals, π.getLast? = some g.index

theorem not_invocationDone : ¬ InvocationDone [Global.commitProcessPacketBegin.index] := by
  rintro ((heq | ⟨g, hg, hne, hlast⟩) | ⟨g, hg, hlast⟩)
  · exact absurd heq (by decide)
  · exact hne (Global.index_inj (Option.some.inj hlast)).symm
  · obtain rfl := Global.index_inj (Option.some.inj hlast)
    revert hg
    decide

/-- `end_invocation` releases regions that `begin_invocation` maps. -/
theorem endInvocation_released (c : Trans.Config) (st left : State)
    (hheap : left.heap = (Trans.beginInvocation c st).heap) (hlog : left.log = []) :
    Released (Trans.beginInvocation c st).heap (Owed c st) InvocationDone
      (Trans.endInvocation c left) := by
  have hm := beginInvocation_tablesMapped c st
  have hqueues := beginInvocation_queuesMapped c st
  have hstart : Released (Trans.beginInvocation c st).heap (Owed c st) (fun _ => False) left := by
    refine ⟨hheap, ?_, ?_, ?_⟩
    · intro p length hmem
      rw [hlog] at hmem
      cases hmem
    · rw [hlog]
      exact List.nodup_nil
    · intro p l₁ l₂ heq
      rw [hlog] at heq
      simp at heq
  have hpcb := hstart.table hm (g := .pcb) (by decide) id
  have hpackets := hpcb.finiPackets hm ?_
  · refine (hpackets.finiQueues hqueues ?_).weaken ?_
    · rintro g hg π ((hπ | rfl) | ⟨g', hg', -, hlast⟩) heq
      · exact hπ
      · obtain rfl := Global.index_inj (Option.some.inj heq)
        revert hg
        decide
      · obtain rfl := Global.index_inj (Option.some.inj (hlast.symm.trans heq))
        revert hg hg'
        cases g' <;> decide
    · rintro π (((hπ | hπ) | hπ) | hπ)
      · exact hπ.elim
      · exact Or.inl (Or.inl hπ)
      · exact Or.inl (Or.inr hπ)
      · exact Or.inr hπ
  · rintro g hg π (hπ | rfl) heq
    · exact hπ
    · obtain rfl := Global.index_inj (Option.some.inj heq)
      revert hg
      decide

/-! ## An invocation -/

/-- The number of calls of `mmap` of `begin_invocation`. -/
theorem beginInvocation_mapCount (c : Trans.Config) (st : State) :
    mapCount (Trans.beginInvocation c st) =
      mapCount st + (Simple.tablesCost 1 1 c.numWorkers c.numAuxWorkers + 32) := by
  have hheaps : Adds (fun _ => True) mapCount 0
      (Trans.initHeaps c c.maxGlobalSize c.maxHeapSize c.maxStackSize) :=
    fun st _ => ⟨trivial, initHeaps_same mapCount (fun _ _ _ _ => rfl) _ _ _⟩
  have hpackets := trans_initPackets_adds mmap_mapCount (fun _ _ => rfl) (fun _ _ => rfl)
    c.numAllWorkers
  have hall := ((hpackets.comp (initQueues_mapCount c.numWorkers c.numAuxWorkers)).comp
    hheaps).comp (mmap_mapCount globals Global.pcb.index sizeofPcb)
  refine (hall st trivial).2.trans ?_
  rw [trans_numAllWorkers]
  omega

theorem endInvocation_munmaps (c : Trans.Config) (st left : State)
    (hheap : left.heap = (Trans.beginInvocation c st).heap) (hlog : left.log = []) :
    munmaps (Trans.endInvocation c left).log =
      Simple.tablesCost 1 1 c.numWorkers c.numAuxWorkers + 31 := by
  have hweight := trans_endInvocation_weight (beginInvocation_built c st) hheap
  rw [tablesCost_mul] at hweight
  unfold freedWeight at hweight
  have hnone : munmaps left.log = 0 := by rw [hlog]; rfl
  omega

/-- The pool of the commit process is mapped in the invocation. -/
theorem beginInvocation_commitPool (c : Trans.Config) (st : State) :
    ∃ p, (Trans.beginInvocation c st).heap.follow [Global.commitProcessPacketBegin.index] = p ∧
      (p, sizeofPacket * packetPoolSize) ∈ regionsMapped (Trans.beginInvocation c st).log ∧
      st.heap.next ≤ p ∧ p < (Trans.beginInvocation c st).heap.next := by
  obtain ⟨hle, hmapped⟩ := beginInvocation_paths (π := [Global.commitProcessPacketBegin.index]) c st
    ⟨.commitProcessPacketBegin, by decide, Or.inl ⟨rfl, rfl⟩⟩
  exact ⟨_, rfl, hmapped, hle, (Trans.beginInvocation c st).heap.lt_next _ _⟩

/-- And so are the pools of chunks, which are other regions. -/
theorem beginInvocation_chunkPools (c : Trans.Config) (st : State) {p : ℕ}
    (hp : p ∈ chunkPools c.numAllWorkers (Trans.beginInvocation c st).heap) :
    (p, sizeofPacketChunk * packetPoolSize) ∈ regionsMapped (Trans.beginInvocation c st).log ∧
      st.heap.next ≤ p ∧
      p ≠ (Trans.beginInvocation c st).heap.follow [Global.commitProcessPacketBegin.index] := by
  obtain ⟨x, hx, rfl⟩ := List.mem_map.1 hp
  obtain ⟨hle, hmapped⟩ := beginInvocation_paths (π := [x, Global.packetChunkBegins.index]) c st
    ⟨.packetChunkBegins, by decide, Or.inr ⟨x, List.mem_range.1 hx, rfl, rfl⟩⟩
  refine ⟨hmapped, hle, ?_⟩
  intro heq
  have hgt := st.heap.next_gt
  have hpaths := (Trans.beginInvocation c st).heap.follow_inj (by omega) heq
  simp at hpaths

theorem chunkPools_nodup (c : Trans.Config) (st : State) :
    (chunkPools c.numAllWorkers (Trans.beginInvocation c st).heap).Nodup := by
  refine List.Nodup.map_on ?_ List.nodup_range
  intro x hx y _ heq
  have hgt := st.heap.next_gt
  obtain ⟨-, hle, -⟩ := beginInvocation_chunkPools c st (List.mem_map_of_mem hx)
  have hpaths := (Trans.beginInvocation c st).heap.follow_inj (by omega) heq
  exact (List.cons.inj hpaths).1

/-- What is unmapped was mapped in the invocation, and is not that pool. -/
theorem endInvocation_unmapped {c : Trans.Config} {st left : State}
    (hheap : left.heap = (Trans.beginInvocation c st).heap) (hlog : left.log = []) {q : ℕ}
    (hq : q ∈ (regionsUnmapped (Trans.endInvocation c left).log).map Prod.fst) :
    st.heap.next ≤ q ∧ q < (Trans.beginInvocation c st).heap.next ∧
      q ≠ (Trans.beginInvocation c st).heap.follow [Global.commitProcessPacketBegin.index] := by
  have hreleased := endInvocation_released c st left hheap hlog
  obtain ⟨⟨q, length⟩, hr, rfl⟩ := List.mem_map.1 hq
  obtain ⟨⟨hle, -⟩, π, hdone, hfollow⟩ :=
    hreleased.unmapped q length (mem_regionsUnmapped.1 hr)
  have hgt := st.heap.next_gt
  have hne : q ≠ 0 := by omega
  refine ⟨hle, ?_, ?_⟩
  · cases π with
    | nil =>
      have hone : q = 1 := hfollow.symm
      omega
    | cons i π =>
      rw [← hfollow]
      exact (Trans.beginInvocation c st).heap.lt_next _ _
  · intro heq
    have hπ := (Trans.beginInvocation c st).heap.follow_inj (hfollow ▸ hne) (hfollow.trans heq)
    exact not_invocationDone (hπ ▸ hdone)

/-- An invocation unmaps at its end the addresses that it mapped at its
    beginning, each once, but for the pool of the commit process. -/
theorem invocation_addresses (c : Trans.Config) {st left : State} (hst : Ranged st)
    (hheap : left.heap = (Trans.beginInvocation c st).heap) (hlog : left.log = []) :
    ((regionsMapped (Trans.beginInvocation c st).log).map Prod.fst).Perm
      ((Trans.beginInvocation c st).heap.follow [Global.commitProcessPacketBegin.index] ::
        ((regionsUnmapped (Trans.endInvocation c left).log).map Prod.fst ++
          (regionsMapped st.log).map Prod.fst)) := by
  have hgt := st.heap.next_gt
  have hbegun := hst.beginInvocation c
  have hreleased := endInvocation_released c st left hheap hlog
  have hmunmaps := endInvocation_munmaps c st left hheap hlog
  have hmmaps := beginInvocation_mapCount c st
  obtain ⟨p, hpointer, -, hple, hplt⟩ := beginInvocation_commitPool c st
  have hunmapped (q : ℕ) := endInvocation_unmapped (q := q) hheap hlog
  rw [hpointer] at hunmapped ⊢
  set begun := Trans.beginInvocation c st
  set U := (regionsUnmapped (Trans.endInvocation c left).log).map Prod.fst with hU
  have hnodup : (p :: (U ++ (regionsMapped st.log).map Prod.fst)).Nodup := by
    rw [List.nodup_cons, List.mem_append, List.nodup_append]
    refine ⟨?_, hreleased.nodup, hst.nodup, ?_⟩
    · rintro (hmem | hmem)
      · exact (hunmapped p hmem).2.2 rfl
      · exact ((hst.mem_iff p).1 hmem).2.not_ge hple
    · rintro q hq q' hq' rfl
      exact ((hst.mem_iff q).1 hq').2.not_ge (hunmapped q hq).1
  have hsub : p :: (U ++ (regionsMapped st.log).map Prod.fst) ⊆
      (regionsMapped begun.log).map Prod.fst := by
    intro q hq
    rw [hbegun.mem_iff]
    rcases List.mem_cons.1 hq with rfl | hq
    · omega
    · rcases List.mem_append.1 hq with hq | hq
      · have hbounds := hunmapped q hq
        omega
      · have hbounds := (hst.mem_iff q).1 hq
        omega
  have hlength : ((regionsMapped begun.log).map Prod.fst).length ≤
      (p :: (U ++ (regionsMapped st.log).map Prod.fst)).length := by
    rw [hU, List.length_cons, List.length_append, List.length_map, List.length_map,
      List.length_map, regionsMapped_length, regionsMapped_length, regionsUnmapped_length, hmunmaps]
    unfold mapCount at hmmaps
    omega
  exact ((List.subperm_of_subset hnodup hsub).perm_of_length_le hlength).symm

/-- The regions that are unmapped are the pools of chunks, with the length of a
    packet pool, and others with the length that they were mapped with. -/
theorem endInvocation_split (c : Trans.Config) {st left : State} (hst : Ranged st)
    (hheap : left.heap = (Trans.beginInvocation c st).heap) (hlog : left.log = []) :
    ∃ whole, whole ⊆ regionsMapped (Trans.beginInvocation c st).log ∧
      (regionsUnmapped (Trans.endInvocation c left).log).Perm
        ((chunkPools c.numAllWorkers (Trans.beginInvocation c st).heap).map
          (·, sizeofPacket * packetPoolSize) ++ whole) := by
  have hreleased := endInvocation_released c st left hheap hlog
  have haddresses := invocation_addresses c hst hheap hlog
  have hchunks (p : ℕ) := beginInvocation_chunkPools (p := p) c st
  have hnodup := chunkPools_nodup c st
  set C := chunkPools c.numAllWorkers (Trans.beginInvocation c st).heap
  set U := regionsUnmapped (Trans.endInvocation c left).log
  have howed (r : ℕ × ℕ) (hr : r ∈ U) : Owed c st r.1 r.2 :=
    (hreleased.unmapped r.1 r.2 (mem_regionsUnmapped.1 hr)).1
  have hshort : (U.filter fun r => r.1 ∈ C).Perm (C.map (·, sizeofPacket * packetPoolSize)) := by
    refine (List.perm_ext_iff_of_nodup ((hreleased.nodup.of_map _).filter _) ?_).2 ?_
    · exact hnodup.map fun p q heq => (Prod.mk.inj heq).1
    · rintro ⟨p, length⟩
      rw [List.mem_filter, decide_eq_true_iff, List.mem_map]
      constructor
      · rintro ⟨hr, hp⟩
        have hlength := (howed (p, length) hr).2
        rw [if_pos hp] at hlength
        exact ⟨p, hp, Prod.ext rfl hlength.symm⟩
      · rintro ⟨q, hp, heq⟩
        obtain ⟨rfl, rfl⟩ := Prod.mk.inj heq
        obtain ⟨hmapped, hle, hne⟩ := hchunks q hp
        -- the address of a chunk pool is among those that are unmapped
        have hmem := haddresses.mem_iff.1 (List.mem_map_of_mem hmapped)
        rcases List.mem_cons.1 hmem with heq | hmem
        · exact absurd heq hne
        · rcases List.mem_append.1 hmem with hmem | hmem
          · obtain ⟨⟨q', length⟩, hr, rfl⟩ := List.mem_map.1 hmem
            have hlength := (howed (q', length) hr).2
            rw [if_pos hp] at hlength
            exact ⟨hlength ▸ hr, hp⟩
          · exact absurd ((hst.mem_iff q).1 hmem).2 hle.not_gt
  refine ⟨U.filter fun r => !decide (r.1 ∈ C), ?_, ?_⟩
  · intro r hr
    obtain ⟨hr, hnot⟩ := List.mem_filter.1 hr
    have hwhole := (howed r hr).2
    rwa [if_neg (by simpa using hnot)] at hwhole
  · exact (List.filter_append_perm (fun r => decide (r.1 ∈ C)) U).symm.trans
      (hshort.append_right _)

/-- **An invocation** unmaps at its end all the regions that were mapped at its
    beginning, each once, but for the pool of the commit process; the pools of
    chunks it unmaps with the length of a packet pool. -/
theorem invocation_regions (c : Trans.Config) {st left : State} (hst : Ranged st)
    (hheap : left.heap = (Trans.beginInvocation c st).heap) (hlog : left.log = []) :
    ∃ (pool : ℕ) (chunks : List ℕ) (whole : List (ℕ × ℕ)), chunks.length = c.numAllWorkers ∧
      (regionsMapped (Trans.beginInvocation c st).log).Perm
        ((pool, sizeofPacket * packetPoolSize) ::
          (chunks.map (·, sizeofPacketChunk * packetPoolSize) ++
            (whole ++ regionsMapped st.log))) ∧
      (regionsUnmapped (Trans.endInvocation c left).log).Perm
        (chunks.map (·, sizeofPacket * packetPoolSize) ++ whole) := by
  have haddresses := invocation_addresses c hst hheap hlog
  obtain ⟨whole, hwhole, hunmapped⟩ := endInvocation_split c hst hheap hlog
  obtain ⟨p, hpointer, hpool, -⟩ := beginInvocation_commitPool c st
  have hchunks (q : ℕ) := beginInvocation_chunkPools (p := q) c st
  rw [hpointer] at haddresses
  refine ⟨p, chunkPools c.numAllWorkers (Trans.beginInvocation c st).heap, whole, ?_, ?_,
    hunmapped⟩
  · rw [chunkPools, List.length_map, List.length_range]
  · set C := chunkPools c.numAllWorkers (Trans.beginInvocation c st).heap
    set regions := (p, sizeofPacket * packetPoolSize) ::
      (C.map (·, sizeofPacketChunk * packetPoolSize) ++ (whole ++ regionsMapped st.log))
    have hsame : (regions.map Prod.fst).Perm
        ((regionsMapped (Trans.beginInvocation c st).log).map Prod.fst) := by
      refine List.Perm.trans ?_ haddresses.symm
      have hfirst := (hunmapped.map Prod.fst).symm
      simp only [regions, List.map_cons, List.map_append, List.map_map, Function.comp_def,
        List.map_id'] at hfirst ⊢
      rw [← List.append_assoc]
      exact (hfirst.append_right _).cons p
    have hnodup : regions.Nodup :=
      (hsame.nodup_iff.2 (hst.beginInvocation c).nodup).of_map _
    have hsub : regions ⊆ regionsMapped (Trans.beginInvocation c st).log := by
      intro r hr
      rcases List.mem_cons.1 hr with rfl | hr
      · exact hpool
      · rcases List.mem_append.1 hr with hr | hr
        · obtain ⟨q, hq, rfl⟩ := List.mem_map.1 hr
          exact (hchunks q hq).1
        · exact (List.mem_append.1 hr).elim (fun hr => hwhole hr) (beginInvocation_mem c)
    have hlength : (regionsMapped (Trans.beginInvocation c st).log).length ≤ regions.length := by
      have heq := hsame.length_eq
      rw [List.length_map, List.length_map] at heq
      exact heq.ge
    exact ((List.subperm_of_subset hnodup hsub).perm_of_length_le hlength).symm

/-! ## Sessions -/

/-- The calls in between map and unmap nothing. -/
theorem stable_regions {env : Env} (h : Heap) (rs us : List (ℕ × ℕ)) :
    Stable env (fun _ => True) fun st =>
      st.heap = h ∧ regionsMapped st.log = rs ∧ regionsUnmapped st.log = us where
  send _ _ _ _ _ _ hst := by
    rw [sendPacket_heap, sendPacket_log]
    exact hst
  consume _ _ _ hst := by
    rw [afterConsume_heap, afterConsume_log]
    exact hst
  clearPtr _ _ hst := hst
  pool _ _ _ _ hst := hst
  commitPool _ _ _ hst := hst

theorem runMain_regions {c : Trans.Config} {env : Env} {fuel : ℕ} {calls : List MainCall}
    {st left : State} (hrun : runMain c env fuel calls st = .ok left) :
    left.heap = st.heap ∧ regionsMapped left.log = regionsMapped st.log ∧
      regionsUnmapped left.log = regionsUnmapped st.log := by
  have hkeeps : Keeps _ (runMain c env fuel calls) := run_keeps (stable_regions st.heap
    (regionsMapped st.log) (regionsUnmapped st.log)) calls
  have hkept := hkeeps st ⟨rfl, rfl, rfl⟩
  rwa [hrun] at hkept

theorem beginInvocation_unmapped (c : Trans.Config) (st : State) :
    regionsUnmapped (Trans.beginInvocation c st).log = regionsUnmapped st.log := by
  have hreset (queue : ℕ) (st : State) :
      regionsUnmapped (Trans.swQueueReset queue st).log = regionsUnmapped st.log :=
    forLoop_same (fun st : State => regionsUnmapped st.log)
      (fun j st => (rfl : regionsUnmapped (clearSlot queue j st).log = _)) 0 queueSize 1 _
  have hpackets : regionsUnmapped (Trans.initPackets c.numAllWorkers st).log =
      regionsUnmapped st.log :=
    initPackets_keeps (P := fun st' => regionsUnmapped st'.log = regionsUnmapped st.log)
      (fun _ _ _ _ h => h) (fun _ _ h => h) (fun _ h => h) c.numAllWorkers rfl
  have hqueues := initQueues_keeps
    (P := fun st' => regionsUnmapped st'.log = regionsUnmapped st.log)
    (fun _ _ _ _ h => h) (fun queue st h => (hreset queue st).trans h)
    c.numWorkers c.numAuxWorkers hpackets
  unfold Trans.beginInvocation
  show regionsUnmapped (Trans.initHeaps c _ _ _ _).log = _
  rw [initHeaps_same State.log fun _ _ _ _ => rfl]
  exact hqueues

/-- After `k` invocations a pool of the commit process is left of each, and the
    rest of every pool of chunks; all other regions are released as they were
    mapped. -/
structure Leaks (c : Trans.Config) (k : ℕ) (st : State) : Prop where
  ranged : Ranged st
  left : ∃ (pools chunks : List ℕ) (whole : List (ℕ × ℕ)),
    pools.length = k ∧ chunks.length = k * c.numAllWorkers ∧
    (regionsMapped st.log).Perm (pools.map (·, sizeofPacket * packetPoolSize) ++
      (chunks.map (·, sizeofPacketChunk * packetPoolSize) ++ whole)) ∧
    (regionsUnmapped st.log).Perm (chunks.map (·, sizeofPacket * packetPoolSize) ++ whole)

theorem leaks_init (c : Trans.Config) : Leaks c 0 .init :=
  ⟨rfl, [], [], [], rfl, (Nat.zero_mul _).symm, List.Perm.refl _, List.Perm.refl _⟩

/-- One more invocation, one more pool, and one more round of chunk pools. -/
theorem Leaks.invocation {c : Trans.Config} {env : Env} {fuel k : ℕ} {calls : List MainCall}
    {st st' : State} (hst : Leaks c k st) (h : invocation c env fuel st calls = .ok st') :
    Leaks c (k + 1) st' := by
  obtain ⟨pools, chunks, whole, hpools, hchunks, hmaps, hunmaps⟩ := hst.left
  obtain ⟨left, hrun, h⟩ := bind_eq_ok h
  obtain rfl := Except.ok.inj h
  obtain ⟨hheap, hmapped, hunmapped⟩ := runMain_regions hrun
  -- the end of the invocation, with a log of its own
  have hend := Releases.endInvocation c
  have hafter : Trans.endInvocation c left =
      after left.log (Trans.endInvocation c { left with log := [] }) :=
    hend.after left.log { left with log := [] }
  have hclean : { left with log := [] }.heap = (Trans.beginInvocation c st).heap := hheap
  obtain ⟨p, chunks', whole', hchunks', hnew, hfreed⟩ := invocation_regions c hst.ranged hclean rfl
  set ended := Trans.endInvocation c { left with log := [] }
  have hM : regionsMapped (Trans.endInvocation c left).log =
      regionsMapped (Trans.beginInvocation c st).log := (hend.mapped left).trans hmapped
  have hU : regionsUnmapped (Trans.endInvocation c left).log =
      regionsUnmapped ended.log ++ regionsUnmapped st.log := by
    rw [hafter, after_log, regionsUnmapped, List.filterMap_append]
    exact congrArg _ (hunmapped.trans (beginInvocation_unmapped c st))
  refine ⟨?_, p :: pools, chunks' ++ chunks, whole' ++ whole, congrArg Nat.succ hpools, ?_, ?_, ?_⟩
  · unfold Ranged
    rw [hM, (hend.heap left).trans hheap]
    exact hst.ranged.beginInvocation c
  · rw [List.length_append, hchunks, hchunks', Nat.succ_mul, Nat.add_comm]
  · rw [hM]
    rw [List.perm_iff_count] at *
    intro r
    rw [hnew r]
    simp only [List.count_cons, List.count_append, List.map_cons, List.map_append, hmaps r]
    omega
  · rw [hU]
    rw [List.perm_iff_count] at *
    intro r
    simp only [List.count_append, List.map_append, hfreed r, hunmaps r]
    omega

/-- And so in a session for each invocation. -/
theorem Leaks.session {c : Trans.Config} {env : Env} {fuel : ℕ} :
    ∀ {invocations : List (List MainCall)} {k : ℕ} {st st' : State}, Leaks c k st →
      session c env fuel invocations st = .ok st' → Leaks c (k + invocations.length) st'
  | [], k, st, st', hst, h => by
    obtain rfl := Except.ok.inj h
    exact hst
  | calls :: invocations, k, st, st', hst, h => by
    unfold Compare.session at h
    rw [List.foldlM_cons] at h
    obtain ⟨st₁, hfirst, h⟩ := bind_eq_ok h
    have hrest := Leaks.session (hst.invocation hfirst) h
    rwa [List.length_cons, Nat.add_comm invocations.length 1, ← Nat.add_assoc]

/-- **What every invocation leaks.**  After a number of invocations, with any
    calls in between, the regions ever mapped and those ever unmapped are the
    same, with the same lengths, but for two kinds: one pool of the commit
    process for each invocation, which is never unmapped, and one pool of chunks
    for each invocation and worker, which is unmapped with the length of a packet
    pool.  No address is mapped twice. -/
theorem session_leaks (c : Trans.Config) (env : Env) (fuel : ℕ)
    (invocations : List (List MainCall)) (st : State)
    (h : session c env fuel invocations .init = .ok st) :
    ((regionsMapped st.log).map Prod.fst).Nodup ∧
    ∃ (pools chunks : List ℕ) (whole : List (ℕ × ℕ)),
      pools.length = invocations.length ∧
      chunks.length = invocations.length * c.numAllWorkers ∧
      (regionsMapped st.log).Perm (pools.map (·, sizeofPacket * packetPoolSize) ++
        (chunks.map (·, sizeofPacketChunk * packetPoolSize) ++ whole)) ∧
      (regionsUnmapped st.log).Perm (chunks.map (·, sizeofPacket * packetPoolSize) ++ whole) := by
  have hleaks := (leaks_init c).session h
  rw [Nat.zero_add] at hleaks
  exact ⟨hleaks.ranged.nodup, hleaks.left⟩

/-- Two invocations of a worker of the first stage. -/
theorem session_leaks_default : ∃ (st : State) (pools chunks : List ℕ) (whole : List (ℕ × ℕ)),
    session .default .bump 1 [[.beginIter 1 1 0 1, .endIter 1 1 0], [.beginIter 1 0 0 1]] .init =
      .ok st ∧ ((regionsMapped st.log).map Prod.fst).Nodup ∧ pools.length = 2 ∧
    chunks.length = 2 * Trans.Config.default.numAllWorkers ∧
    (regionsMapped st.log).Perm (pools.map (·, sizeofPacket * packetPoolSize) ++
      (chunks.map (·, sizeofPacketChunk * packetPoolSize) ++ whole)) ∧
    (regionsUnmapped st.log).Perm (chunks.map (·, sizeofPacket * packetPoolSize) ++ whole) := by
  have hworks : ∀ call ∈ [.beginIter 1 1 0 1, .endIter 1 1 0],
      MainCall.Works Trans.Config.default call := by
    refine List.forall_mem_cons.2 ⟨⟨rfl, by decide⟩, List.forall_mem_singleton.2 ?_⟩
    intro e he
    rw [iterTargets, if_neg (by decide)] at he
    exact absurd he List.not_mem_nil
  have hreturns : Returns (Trans.Quiet .default)
      (runMain .default .bump 1 [.beginIter 1 1 0 1, .endIter 1 1 0]) :=
    runMain_returns Nat.one_pos hworks
  obtain ⟨left, hfirst, -⟩ := hreturns _ (beginInvocation_quiet .default)
  have hsession : session .default .bump 1 [[.beginIter 1 1 0 1, .endIter 1 1 0],
      [.beginIter 1 0 0 1]] .init = .ok (Trans.endInvocation .default
        (Trans.beginInvocation .default (Trans.endInvocation .default left))) := by
    rw [session, List.foldlM_cons, invocation, hfirst]
    rfl
  obtain ⟨hnodup, pools, chunks, whole, hleft⟩ := session_leaks .default .bump 1 _ _ hsession
  exact ⟨_, pools, chunks, whole, hsession, hnodup, hleft⟩

end SpecPriv.Compare
