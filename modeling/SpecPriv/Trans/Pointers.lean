/-
  Where the pointers lead that `begin_invocation` leaves.

  The global variables may hold anything before.  Afterwards the paths that
  `end_invocation` follows lead to regions that this call has mapped, which are
  the regions from a number on, and with the lengths that the tables and the
  pools call for (`beginInvocation_paths`).
-/
import SpecPriv.Trans.Begin
import SpecPriv.Trans.Mapped

namespace SpecPriv.Trans

open Loop Regions Heap

variable {h h' : Heap} {st : State} {S S' : List ℕ → ℕ → Prop} {π : List ℕ} {start n i : ℕ}
  {g : Global} {gs : List Global}

/-! ## Paths -/

/-- What is done for one global variable does not change the paths from the others. -/
theorem follow_frame {k : ℕ} (hframe : Frame (fun b j => b = globals ∧ j = k) h h') :
    ∀ {π : List ℕ}, π.getLast? ≠ some k → h'.follow π = h.follow π
  | [], _ => rfl
  | i :: π, hlast => by
    have hsame : h'.follow π = h.follow π := by
      cases π with
      | nil => rfl
      | cons j π => exact follow_frame hframe (by simpa using hlast)
    have hlt : h.follow π < h.next := by
      cases π with
      | nil => exact h.next_gt
      | cons j π => exact h.lt_next _ _
    rw [follow, hsame, hframe.same _ hlt, follow]
    rintro ⟨hglobals, rfl⟩
    cases π with
    | nil => exact hlast rfl
    | cons j π => exact h.ne_one _ _ hglobals

/-- The paths of `S` lead to regions from `start` on, which were mapped with
    these lengths. -/
structure Reaches (start : ℕ) (S : List ℕ → ℕ → Prop) (st : State) : Prop where
  start_le : start ≤ st.heap.next
  globals_lt : globals < start
  placed : ∀ π length, S π length → Placed start st.heap π
  mapped : ∀ π length, S π length → .mmap (st.heap.follow π) length ∈ st.log

theorem Reaches.weaken (h : Reaches start S st) (hS : ∀ π length, S' π length → S π length) :
    Reaches start S' st where
  start_le := h.start_le
  globals_lt := h.globals_lt
  placed π length hπ := h.placed π length (hS π length hπ)
  mapped π length hπ := h.mapped π length (hS π length hπ)

/-- Only the heap and the calls of `mmap` matter. -/
theorem Reaches.congr {st' : State} (h : Reaches start S st) (hheap : st'.heap = st.heap)
    (hlog : ∀ ev ∈ st.log, ev ∈ st'.log) : Reaches start S st' := by
  refine ⟨?_, h.globals_lt, ?_, ?_⟩
  · rw [hheap]
    exact h.start_le
  · rw [hheap]
    exact h.placed
  · rw [hheap]
    exact fun π length hπ => hlog _ (h.mapped π length hπ)

/-- A region is mapped into a new place. -/
theorem Reaches.mmap (h : Reaches start S st) (hπ : Placed start st.heap π)
    (hnew : ∀ path length, S path length → ¬ (i :: π) <:+ path) (length : ℕ) :
    Reaches start (fun path l => S path l ∨ path = i :: π ∧ l = length)
      (st.mmap (st.heap.follow π) i length) := by
  have hself : ¬ (i :: π) <:+ π := fun hs => hs.length_le.not_gt (Nat.lt_succ_self _)
  obtain ⟨hplaced, hsame⟩ := hπ.mapAt h.globals_lt hself
  have hpointer : (st.mmap (st.heap.follow π) i length).heap.follow (i :: π) = st.heap.next := by
    rw [follow, State.mmap_heap, hsame, mapAt_self (hπ.follow_ne_zero h.globals_lt)]
  refine ⟨h.start_le.trans (Nat.le_succ _), h.globals_lt, ?_, ?_⟩
  · rintro path l (hpath | ⟨rfl, rfl⟩)
    · exact ((h.placed path l hpath).mapAt h.globals_lt (hnew path l hpath)).1
    · exact ⟨hplaced, h.start_le.trans_eq hpointer.symm⟩
  · rintro path l (hpath | ⟨rfl, rfl⟩)
    · rw [State.mmap_heap, ((h.placed path l hpath).mapAt h.globals_lt (hnew path l hpath)).2]
      exact List.mem_cons_of_mem _ (h.mapped path l hpath)
    · rw [hpointer]
      exact List.mem_cons_self

/-! ## `init_packets` -/

/-- The length of the region that a global variable leads to. -/
def tableSize (n : ℕ) : Global → ℕ
  | .commitProcessPacketBegin => sizeofPacket * packetPoolSize
  | .pcb => sizeofPcb
  | _ => sizeofPtr * n

/-- The length of the pools that a global variable leads to. -/
def poolSize : Global → ℕ
  | .packetChunkBegins => sizeofPacketChunk * packetPoolSize
  | _ => sizeofPacket * packetPoolSize

/-- The paths to some tables, and to as many of their rows as are mapped, with
    the lengths of the regions. -/
def TablePaths (n : ℕ) (gs : List Global) (rows : Global → ℕ) (π : List ℕ) (length : ℕ) : Prop :=
  ∃ g ∈ gs, π = [g.index] ∧ length = tableSize n g ∨
    ∃ x < rows g, π = [x, g.index] ∧ length = poolSize g

variable {rows : Global → ℕ} {length : ℕ}

/-- Another table. -/
theorem Reaches.table (h : Reaches start (TablePaths n gs rows) st) (hg : g ∉ gs)
    (hrows : rows g = 0) :
    Reaches start (TablePaths n (g :: gs) rows) (st.mmap globals g.index (tableSize n g)) := by
  have hnew : ∀ path length, TablePaths n gs rows path length → ¬ [g.index] <:+ path := by
    rintro path length ⟨g', hg', hpath⟩ hs
    have hlast : g.index = g'.index := by
      rcases hpath with ⟨rfl, -⟩ | ⟨x, -, rfl, -⟩
      · exact List.singleton_inj.1 (hs.eq_of_length rfl)
      · simpa using hs.getLast (by simp)
    exact hg (Global.index_inj hlast ▸ hg')
  refine (h.mmap (π := []) trivial hnew (tableSize n g)).weaken ?_
  rintro π l ⟨g', hg', hπ⟩
  rcases List.mem_cons.1 hg' with rfl | hg'
  · rcases hπ with hπ | ⟨x, hx, -⟩
    · exact Or.inr hπ
    · exact absurd hx (by omega)
  · exact Or.inl ⟨g', hg', hπ⟩

/-- Another row. -/
theorem Reaches.row (h : Reaches start (TablePaths n gs rows) st) (hg : g ∈ gs) :
    Reaches start (TablePaths n gs (Function.update rows g (rows g + 1)))
      (st.mmap (st.global g) (rows g) (poolSize g)) := by
  have hnew : ∀ path length, TablePaths n gs rows path length → ¬ [rows g, g.index] <:+ path := by
    rintro path length ⟨g', -, ⟨rfl, -⟩ | ⟨x, hx, rfl, -⟩⟩ hs
    · exact absurd hs.length_le (by simp)
    · obtain ⟨heq, hrest⟩ := List.cons.inj (hs.eq_of_length rfl)
      obtain rfl := Global.index_inj (List.singleton_inj.1 hrest)
      omega
  refine (h.mmap (h.placed _ _ ⟨g, hg, Or.inl ⟨rfl, rfl⟩⟩) hnew (poolSize g)).weaken ?_
  rintro π l ⟨g', hg', hπ | ⟨x, hx, hπ⟩⟩
  · exact Or.inl ⟨g', hg', Or.inl hπ⟩
  · by_cases hgg : g' = g
    · subst hgg
      rw [Function.update_self] at hx
      rcases Nat.lt_succ_iff_lt_or_eq.1 hx with hx | rfl
      · exact Or.inl ⟨g', hg', Or.inr ⟨x, hx, hπ⟩⟩
      · exact Or.inr hπ
    · rw [Function.update_of_ne hgg] at hx
      exact Or.inl ⟨g', hg', Or.inr ⟨x, hx, hπ⟩⟩

/-- A loop that maps the rows of a table. -/
theorem Reaches.fill (h : Reaches start (TablePaths n gs rows) st) (hg : g ∈ gs)
    (hrows : rows g = 0) {body : ℕ → State → State}
    (hheap : ∀ i st, (body i st).heap = (st.mmap (st.global g) i (poolSize g)).heap)
    (hlog : ∀ i st, (body i st).log = (st.mmap (st.global g) i (poolSize g)).log) (k : ℕ) :
    Reaches start (TablePaths n gs (Function.update rows g k)) (forLoop 0 k 1 body st) := by
  unfold forLoop
  rw [rounds_one, Nat.sub_zero]
  refine forN_induct (fun i => Reaches start (TablePaths n gs (Function.update rows g i))) ?_ ?_
  · rwa [← hrows, Function.update_eq_self]
  · intro i _ st hst
    rw [Nat.zero_add, Nat.one_mul]
    have hrow := hst.row hg
    rw [Function.update_self, Function.update_idem] at hrow
    refine hrow.congr (hheap i st) ?_
    rw [hlog]
    exact fun ev hev => hev

/-- The global variables of `init_packets`, the last one first. -/
def packetGlobals : List Global :=
  [.packetChunkNexts, .packetChunkEnds, .packetChunkBegins, .commitProcessPacketBegin,
    .packetNexts, .packetEnds, .packetBegins]

/-- The number of pools that a global variable of `init_packets` leads to. -/
def packetRows (n : ℕ) : Global → ℕ
  | .packetBegins => n
  | .packetChunkBegins => n
  | _ => 0

/-- The tables and the pools of `init_packets` are regions that it maps. -/
theorem initPackets_reaches (n : ℕ) (st : State) :
    Reaches st.heap.next (TablePaths n packetGlobals (packetRows n)) (initPackets n st) := by
  have hstart : Reaches st.heap.next (TablePaths n [] fun _ => 0) st := by
    refine ⟨le_rfl, st.heap.next_gt, ?_, ?_⟩
    · rintro π length ⟨g, hg, -⟩
      cases hg
    · rintro π length ⟨g, hg, -⟩
      cases hg
  have hrows : ∀ g, packetRows n g = Function.update
      (Function.update (fun _ => 0) .packetBegins n) .packetChunkBegins n g := by
    intro g
    cases g <;> rfl
  rw [funext hrows]
  unfold initPackets packetGlobals
  refine Reaches.fill ?_ (g := .packetChunkBegins) (by decide) rfl (fun _ _ => rfl)
    (fun _ _ => rfl) n
  refine Reaches.table ?_ (by decide) rfl
  refine Reaches.table ?_ (by decide) rfl
  refine Reaches.table ?_ (by decide) rfl
  refine (Reaches.table ?_ (g := .commitProcessPacketBegin) (by decide) rfl).congr rfl
    fun _ hev => hev
  have htables := ((hstart.table (g := .packetBegins) (by decide) rfl).table (g := .packetEnds)
    (by decide) rfl).table (g := .packetNexts) (by decide) rfl
  refine htables.fill (g := .packetBegins) (by decide) rfl ?_ ?_ n
  · exact fun _ _ => rfl
  · exact fun _ _ => rfl

/-! ## `begin_invocation` -/

/-- The global variables of `init_queues`. -/
def queueGlobals : List Global :=
  [.ucvfQueues, .queues, .commitQueues, .reverseCommitQueues]

/-- `init_queues` changes no path from another global variable. -/
theorem initQueues_follow (n a : ℕ) (st : State)
    (hlast : ∀ g ∈ queueGlobals, π.getLast? ≠ some g.index) :
    (initQueues n a st).heap.follow π = st.heap.follow π := by
  obtain ⟨hf₁, -⟩ := newGrid_hasGrid st.heap .ucvfQueues n (· + 1) n
  obtain ⟨hf₂, -⟩ := newGrid_hasGrid _ .queues n (fun _ => 0) a
  obtain ⟨hf₃, -⟩ := newRow_hasRow _ .commitQueues a
  obtain ⟨hf₄, -⟩ := newRow_hasRow _ .reverseCommitQueues n
  rw [initQueues_heap, follow_frame hf₄ (hlast _ (by decide)),
    follow_frame hf₃ (hlast _ (by decide)), follow_frame hf₂ (hlast _ (by decide)),
    follow_frame hf₁ (hlast _ (by decide))]

/-- The heap that `begin_invocation` leaves. -/
theorem beginInvocation_heap (c : Config) (st : State) : (beginInvocation c st).heap =
    mapAt globals Global.pcb.index
      (initQueues c.numWorkers c.numAuxWorkers (initPackets c.numAllWorkers st)).heap := by
  unfold beginInvocation
  rw [State.mmap_heap, initHeaps_same State.heap fun _ _ _ _ => rfl]

/-- What is left of the paths when the PCB is mapped. -/
theorem beginInvocation_follow (c : Config) (st : State)
    (hlast : π.getLast? ≠ some Global.pcb.index) : (beginInvocation c st).heap.follow π =
      (initQueues c.numWorkers c.numAuxWorkers (initPackets c.numAllWorkers st)).heap.follow π := by
  rw [beginInvocation_heap]
  exact follow_frame (mapAt_frame Nat.one_ne_zero _ _) hlast

/-- The global variables that lead to regions other than those of the queues. -/
def otherGlobals : List Global := .pcb :: packetGlobals

theorem TablePaths.getLast (h : TablePaths n gs rows π length) :
    ∃ g ∈ gs, π.getLast? = some g.index := by
  obtain ⟨g, hg, ⟨rfl, -⟩ | ⟨x, -, rfl, -⟩⟩ := h
  · exact ⟨g, hg, rfl⟩
  · exact ⟨g, hg, rfl⟩

theorem TablePaths.le_follow (h : TablePaths n gs rows π length) {start : ℕ} {st : State}
    (hst : Reaches start (TablePaths n gs rows) st) : start ≤ st.heap.follow π := by
  have hplaced := hst.placed π length h
  obtain ⟨g, -, ⟨rfl, -⟩ | ⟨x, -, rfl, -⟩⟩ := h
  · exact hplaced.2
  · exact hplaced.2

/-- What is in the log stays there. -/
theorem initQueues_log (n a : ℕ) (st : State) : ∀ ev ∈ st.log, ev ∈ (initQueues n a st).log :=
  fun _ hev => initQueues_keeps (P := fun st' => _ ∈ st'.log)
    (fun _ _ _ _ h => List.mem_cons_of_mem _ h) (fun queue st h => swQueueReset_log queue st _ h)
    n a hev

/-- The PCB, the tables and the pools are regions that `begin_invocation` maps. -/
theorem beginInvocation_paths (c : Config) (st : State)
    (hπ : TablePaths c.numAllWorkers otherGlobals (packetRows c.numAllWorkers) π length) :
    st.heap.next ≤ (beginInvocation c st).heap.follow π ∧
      ((beginInvocation c st).heap.follow π, length) ∈
        regionsMapped (beginInvocation c st).log := by
  have hreaches := initPackets_reaches c.numAllWorkers st
  have hlog : (beginInvocation c st).log = .mmap (initQueues c.numWorkers c.numAuxWorkers
      (initPackets c.numAllWorkers st)).heap.next sizeofPcb ::
        (initQueues c.numWorkers c.numAuxWorkers (initPackets c.numAllWorkers st)).log := by
    unfold beginInvocation
    rw [State.mmap_log, initHeaps_same State.heap fun _ _ _ _ => rfl,
      initHeaps_same State.log fun _ _ _ _ => rfl]
  obtain ⟨g, hg, hpath⟩ := hπ
  rcases List.mem_cons.1 hg with rfl | hpacket
  · rcases hpath with ⟨rfl, rfl⟩ | ⟨x, hx, -⟩
    · have hle : st.heap.next ≤
          (initQueues c.numWorkers c.numAuxWorkers (initPackets c.numAllWorkers st)).heap.next := by
        refine initQueues_keeps (P := fun st' => st.heap.next ≤ st'.heap.next) ?_ ?_ _ _
          hreaches.start_le
        · intro _ _ _ st' hst'
          exact hst'.trans (Nat.le_succ _)
        · intro queue st' hst'
          rwa [swQueueReset_heap]
      have hpcb : (beginInvocation c st).heap.follow [Global.pcb.index] =
          (initQueues c.numWorkers c.numAuxWorkers (initPackets c.numAllWorkers st)).heap.next := by
        rw [beginInvocation_heap]
        exact mapAt_self Nat.one_ne_zero _ _
      rw [hpcb, hlog, mem_regionsMapped]
      exact ⟨hle, List.mem_cons_self⟩
    · cases hx
  · have hpaths : TablePaths c.numAllWorkers packetGlobals (packetRows c.numAllWorkers) π length :=
      ⟨g, hpacket, hpath⟩
    obtain ⟨g', hg', hlast⟩ := hpaths.getLast
    have hne : ∀ k ∈ queueGlobals ++ [.pcb], π.getLast? ≠ some k.index := by
      intro k hk heq
      obtain rfl := Global.index_inj (Option.some.inj (hlast.symm.trans heq))
      revert hg' hk
      cases g' <;> decide
    rw [beginInvocation_follow c st (hne _ (by decide)),
      initQueues_follow _ _ _ fun k hk => hne k (List.mem_append_left _ hk), hlog,
      mem_regionsMapped]
    exact ⟨hpaths.le_follow hreaches,
      List.mem_cons_of_mem _ (initQueues_log _ _ _ _ (hreaches.mapped π length hpaths))⟩

end SpecPriv.Trans
