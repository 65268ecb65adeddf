/-
  What `fini_queues` and `fini_packets` release of what `init_queues` and
  `init_packets` mapped.

  `Released h Q D st`: in the log of `st` only regions of the paths of `D` are
  unmapped, each once and with a length that `Q` allows, and no region is read
  after it is unmapped.  Every step of `fini_queues` keeps this, with the paths
  released so far as `D`.

  * `finiQueues_releases`: after any traffic on the queues `fini_queues`
    releases exactly the regions that `init_queues` mapped, with their lengths;
  * `finiPackets_leaks`: `fini_packets` never does for `init_packets`.
-/
import SpecPriv.Compare.QueueCost
import SpecPriv.Trans.Forward
import SpecPriv.Trans.Mapped

namespace SpecPriv.Compare

open Loop Regions Heap Meter SpecPriv.Trans
open Stopping (Keeps KeepsVal last)

/-! ## Releasing -/

/-- The regions released so far are those of some paths in `D`, with lengths
    in `Q`, each once, and none of them is read afterwards. -/
structure Released (h : Heap) (Q : ℕ → ℕ → Prop) (D : List ℕ → Prop) (st : State) : Prop where
  heap_eq : st.heap = h
  unmapped : ∀ p length, .munmap p length ∈ st.log → Q p length ∧ ∃ π, D π ∧ h.follow π = p
  nodup : ((regionsUnmapped st.log).map Prod.fst).Nodup
  loads : ∀ p l₁ l₂, st.log = l₁ ++ .load p :: l₂ →
    (∃ length, Q p length) ∧ ∀ length, .munmap p length ∉ l₂

/-- A path that leads to a region, of a length in `Q`, that is not released. -/
structure Live (h : Heap) (Q : ℕ → ℕ → Prop) (D : List ℕ → Prop) (π : List ℕ) (length : ℕ) :
    Prop where
  ne_zero : h.follow π ≠ 0
  mapped : Q (h.follow π) length
  live : ¬ D π

variable {h : Heap} {Q : ℕ → ℕ → Prop} {D D' D₀ : List ℕ → Prop} {st : State} {π : List ℕ}
  {length i j k : ℕ}

/-- A live region is not unmapped. -/
theorem Released.not_mem (hr : Released h Q D st) (hl : Live h Q D π length) (length' : ℕ) :
    .munmap (h.follow π) length' ∉ st.log := by
  intro hmem
  obtain ⟨-, π', hD, heq⟩ := hr.unmapped _ _ hmem
  have hπ := h.follow_inj hl.ne_zero heq.symm
  exact hl.live (hπ ▸ hD)

theorem Released.weaken (hr : Released h Q D st) (hD : ∀ π, D π → D' π) : Released h Q D' st where
  heap_eq := hr.heap_eq
  unmapped p length hmem := by
    obtain ⟨hQ, π, hπ, heq⟩ := hr.unmapped p length hmem
    exact ⟨hQ, π, hD π hπ, heq⟩
  nodup := hr.nodup
  loads := hr.loads

theorem Released.load (hr : Released h Q D st) (hl : Live h Q D π length) (i : ℕ) :
    Released h Q D (st.load (h.follow π) i).2 where
  heap_eq := hr.heap_eq
  unmapped p length' hmem := by
    refine hr.unmapped p length' ?_
    simpa using hmem
  nodup := by simpa [regionsUnmapped] using hr.nodup
  loads p l₁ l₂ heq := by
    rw [State.load_snd, State.record_log] at heq
    rcases l₁ with _ | ⟨ev, l₁⟩
    · obtain ⟨hev, rfl⟩ := List.cons.inj heq
      obtain rfl := Event.load.inj hev
      exact ⟨⟨length, hl.mapped⟩, hr.not_mem hl⟩
    · exact hr.loads p l₁ l₂ (List.cons.inj heq).2

theorem Released.munmap (hr : Released h Q D st) (hl : Live h Q D π length)
    (hD : ∀ π, D π → D' π) (hπ : D' π) : Released h Q D' (st.munmap (h.follow π) length) where
  heap_eq := hr.heap_eq
  unmapped p length' hmem := by
    rcases List.mem_cons.1 hmem with heq | hmem
    · obtain ⟨rfl, rfl⟩ := Event.munmap.inj heq
      exact ⟨hl.mapped, π, hπ, rfl⟩
    · exact (hr.weaken hD).unmapped p length' hmem
  nodup := by
    have hlog : regionsUnmapped (st.munmap (h.follow π) length).log =
        (h.follow π, length) :: regionsUnmapped st.log := rfl
    rw [hlog, List.map_cons, List.nodup_cons]
    refine ⟨?_, hr.nodup⟩
    intro hmem
    obtain ⟨⟨p, length'⟩, hreg, rfl⟩ := List.mem_map.1 hmem
    exact hr.not_mem hl length' (mem_regionsUnmapped.1 hreg)
  loads p l₁ l₂ heq := by
    rw [State.munmap_log] at heq
    rcases l₁ with _ | ⟨ev, l₁⟩
    · cases heq
    · exact hr.loads p l₁ l₂ (List.cons.inj heq).2

/-! ## Tables -/

/-- What is known of a table at the variable `k`: it and what its `n` words
    lead to are mapped, with these lengths. -/
structure TableMapped (h : Heap) (Q : ℕ → ℕ → Prop) (k n lengthT lengthR : ℕ) : Prop where
  table : h.follow [k] ≠ 0 ∧ Q (h.follow [k]) lengthT
  row : ∀ i < n, h.follow [i, k] ≠ 0 ∧ Q (h.follow [i, k]) lengthR

/-- What is released when the loops over a table have come to row `i` and
    queue `j`. -/
def GridDone (D : List ℕ → Prop) (k i j : ℕ) (π : List ℕ) : Prop :=
  D π ∨ (∃ x y, π = [y, x, k] ∧ (x < i ∨ x = i ∧ y < j)) ∨ ∃ x < i, π = [x, k]

/-- What is released when a table is. -/
def TableDone (D : List ℕ → Prop) (k : ℕ) (π : List ℕ) : Prop := D π ∨ π.getLast? = some k

/-- Nothing of the table at `k` is released. -/
def Untouched (D : List ℕ → Prop) (k : ℕ) : Prop := ∀ π, D π → π.getLast? ≠ some k

variable {n stop lengthT lengthR : ℕ} {g : Global}

section Live

variable (hm : TableMapped h Q k n lengthT lengthR) (hD : Untouched D₀ k)
include hm hD

theorem TableMapped.live_table (i j : ℕ) : Live h Q (GridDone D₀ k i j) [k] lengthT := by
  refine ⟨hm.table.1, hm.table.2, ?_⟩
  rintro (hπ | ⟨x, y, heq, -⟩ | ⟨x, -, heq⟩)
  · exact hD _ hπ rfl
  · simp at heq
  · simp at heq

theorem TableMapped.live_row (hi : i < n) (j : ℕ) :
    Live h Q (GridDone D₀ k i j) [i, k] lengthR := by
  refine ⟨(hm.row i hi).1, (hm.row i hi).2, ?_⟩
  rintro (hπ | ⟨x, y, heq, -⟩ | ⟨x, hx, heq⟩)
  · exact hD _ hπ rfl
  · simp at heq
  · simp at heq
    omega

end Live

theorem live_queue (hD : Untouched D₀ k) (h0 : h.follow [j, i, k] ≠ 0)
    (hQ : Q (h.follow [j, i, k]) length) : Live h Q (GridDone D₀ k i j) [j, i, k] length := by
  refine ⟨h0, hQ, ?_⟩
  rintro (hπ | ⟨x, y, heq, hxy⟩ | ⟨x, -, heq⟩)
  · exact hD _ hπ rfl
  · simp at heq
    omega
  · simp at heq

theorem freeIfCreated_eq (g : Global) (i j : ℕ) (st : State) : freeIfCreated g i j st =
    if st.heap.follow [j, i, g.index] ≠ 0 then
      ((st.load (st.heap.follow [g.index]) i).2.load (st.heap.follow [i, g.index]) j).2.munmap
        (st.heap.follow [j, i, g.index]) sizeofQueue
    else ((st.load (st.heap.follow [g.index]) i).2.load (st.heap.follow [i, g.index]) j).2 := rfl

theorem unmapAt_eq (g : Global) (i length : ℕ) (st : State) : unmapAt g i length st =
    (st.load (st.heap.follow [g.index]) i).2.munmap (st.heap.follow [i, g.index]) length := rfl

/-- One queue of a row. -/
theorem Released.freeIfCreated (hm : TableMapped h Q g.index n lengthT lengthR)
    (hD : Untouched D₀ g.index) (hi : i < n)
    (hQ : h.follow [j, i, g.index] ≠ 0 → Q (h.follow [j, i, g.index]) sizeofQueue)
    (hr : Released h Q (GridDone D₀ g.index i j) st) :
    Released h Q (GridDone D₀ g.index i (j + 1)) (freeIfCreated g i j st) := by
  have hloaded := (hr.load (hm.live_table hD i j) i).load (hm.live_row hD hi j) j
  have hD' : ∀ π, GridDone D₀ g.index i j π → GridDone D₀ g.index i (j + 1) π := by
    rintro π (hπ | ⟨x, y, heq, hxy⟩ | hπ)
    · exact Or.inl hπ
    · exact Or.inr (Or.inl ⟨x, y, heq, by omega⟩)
    · exact Or.inr (Or.inr hπ)
  obtain rfl := hr.heap_eq
  rw [freeIfCreated_eq]
  by_cases hq : st.heap.follow [j, i, g.index] = 0
  · rw [if_neg (fun h0 => h0 hq)]
    exact hloaded.weaken hD'
  · rw [if_pos hq]
    exact hloaded.munmap (live_queue hD hq (hQ hq)) hD' (Or.inr (Or.inl ⟨i, j, rfl, by omega⟩))

/-- One row. -/
theorem Released.unmapAt (hm : TableMapped h Q g.index n lengthT lengthR)
    (hD : Untouched D₀ g.index) (hi : i < n) (hr : Released h Q (GridDone D₀ g.index i j) st) :
    Released h Q (GridDone D₀ g.index (i + 1) 0) (unmapAt g i lengthR st) := by
  have hloaded := hr.load (hm.live_table hD i j) i
  obtain rfl := hr.heap_eq
  rw [unmapAt_eq]
  refine hloaded.munmap (hm.live_row hD hi j) ?_ (Or.inr (Or.inr ⟨i, Nat.lt_succ_self i, rfl⟩))
  rintro π (hπ | ⟨x, y, heq, hxy⟩ | ⟨x, hx, heq⟩)
  · exact Or.inl hπ
  · exact Or.inr (Or.inl ⟨x, y, heq, by omega⟩)
  · exact Or.inr (Or.inr ⟨x, by omega, heq⟩)

/-- The table itself. -/
theorem Released.munmapTable (hm : TableMapped h Q g.index n lengthT lengthR)
    (hD : Untouched D₀ g.index) (hr : Released h Q (GridDone D₀ g.index i j) st) :
    Released h Q (TableDone D₀ g.index) (st.munmap (st.global g) lengthT) := by
  have htable : st.global g = h.follow [g.index] := by
    rw [← hr.heap_eq]
    rfl
  rw [htable]
  refine hr.munmap (hm.live_table hD i j) ?_ (Or.inr rfl)
  rintro π (hπ | ⟨x, y, rfl, -⟩ | ⟨x, -, rfl⟩)
  · exact Or.inl hπ
  · exact Or.inr rfl
  · exact Or.inr rfl

theorem Released.start (hr : Released h Q D₀ st) (k : ℕ) : Released h Q (GridDone D₀ k 0 0) st :=
  hr.weaken fun _ hπ => Or.inl hπ

/-- A table of queues. -/
theorem Released.queueTable (hm : TableMapped h Q g.index n lengthT sizeofQueue)
    (hD : Untouched D₀ g.index) (hr : Released h Q D₀ st) :
    Released h Q (TableDone D₀ g.index)
      ((forLoop 0 n 1 (fun i => Trans.unmapAt g i sizeofQueue) st).munmap
        ((forLoop 0 n 1 (fun i => Trans.unmapAt g i sizeofQueue) st).global g) lengthT) := by
  have hloop : Released h Q (GridDone D₀ g.index n 0)
      (forLoop 0 n 1 (fun i => Trans.unmapAt g i sizeofQueue) st) := by
    unfold forLoop
    rw [rounds_one, Nat.sub_zero]
    refine forN_induct (fun i => Released h Q (GridDone D₀ g.index i 0)) (hr.start _) ?_
    intro i hi st hst
    rw [Nat.zero_add, Nat.one_mul]
    exact hst.unmapAt hm hD hi
  exact hloop.munmapTable hm hD

/-- A table of rows of queues. -/
theorem Released.grid (stop : ℕ) (hm : TableMapped h Q g.index n lengthT lengthR)
    (hQ : ∀ i < n, ∀ j, h.follow [j, i, g.index] ≠ 0 → Q (h.follow [j, i, g.index]) sizeofQueue)
    (hD : Untouched D₀ g.index) (hr : Released h Q D₀ st) :
    Released h Q (TableDone D₀ g.index)
      (let st := forLoop 0 n 1 (fun i st =>
        Trans.unmapAt g i lengthR (forLoop 0 stop 1 (Trans.freeIfCreated g i) st)) st
      st.munmap (st.global g) lengthT) := by
  refine Released.munmapTable (i := n) (j := 0) hm hD ?_
  unfold forLoop
  rw [rounds_one, Nat.sub_zero]
  refine forN_induct (fun i => Released h Q (GridDone D₀ g.index i 0)) (hr.start _) ?_
  intro i hi st hst
  rw [Nat.zero_add, Nat.one_mul, rounds_one, Nat.sub_zero]
  refine Released.unmapAt (j := stop) hm hD hi ?_
  refine forN_induct (fun j => Released h Q (GridDone D₀ g.index i j)) hst ?_
  intro j hj st hst
  rw [Nat.zero_add, Nat.one_mul]
  exact hst.freeIfCreated hm hD hi (hQ i hi j)

/-! ## `fini_queues` -/

theorem Untouched.tableDone {k' : ℕ} (hD : Untouched D k) (hne : k' ≠ k) :
    Untouched (TableDone D k') k := by
  rintro π (hπ | hlast) heq
  · exact hD π hπ heq
  · exact hne (Option.some.inj (hlast.symm.trans heq))

/-- What is known of the tables when `fini_queues` is called. -/
structure QueuesMapped (n a : ℕ) (h : Heap) (Q : ℕ → ℕ → Prop) : Prop where
  ucvf : TableMapped h Q Global.ucvfQueues.index n (sizeofPtr * n) (sizeofPtr * n)
  ucvfQueue : ∀ i < n, ∀ j, h.follow [j, i, Global.ucvfQueues.index] ≠ 0 →
    Q (h.follow [j, i, Global.ucvfQueues.index]) sizeofQueue
  queues : TableMapped h Q Global.queues.index n (sizeofPtr * n) (sizeofPtr * a)
  queuesQueue : ∀ i < n, ∀ j, h.follow [j, i, Global.queues.index] ≠ 0 →
    Q (h.follow [j, i, Global.queues.index]) sizeofQueue
  commit : TableMapped h Q Global.commitQueues.index a (sizeofPtr * a) sizeofQueue
  reverse : TableMapped h Q Global.reverseCommitQueues.index n (sizeofPtr * n) sizeofQueue

theorem finiQueues_released {a : ℕ} (hm : QueuesMapped n a h Q) (hheap : st.heap = h)
    (hlog : st.log = []) : ∃ D, Released h Q D (finiQueues n a st) := by
  have hstart : Released h Q (fun _ => False) st := by
    refine ⟨hheap, ?_, ?_, ?_⟩
    · intro p length hmem
      rw [hlog] at hmem
      cases hmem
    · rw [hlog]
      exact List.nodup_nil
    · intro p l₁ l₂ heq
      rw [hlog] at heq
      simp at heq
  have huntouched : ∀ k, Untouched (fun _ => False) k := fun _ _ hπ => hπ.elim
  have hucvf := hstart.grid n hm.ucvf hm.ucvfQueue (huntouched _)
  have hqueues := hucvf.grid a hm.queues hm.queuesQueue ((huntouched _).tableDone (by decide))
  have hcommit := hqueues.queueTable hm.commit
    (((huntouched _).tableDone (by decide)).tableDone (by decide))
  have hreverse := hcommit.queueTable hm.reverse
    ((((huntouched _).tableDone (by decide)).tableDone (by decide)).tableDone (by decide))
  exact ⟨_, hreverse⟩

/-- What `init_queues` maps is what `fini_queues` relies on. -/
theorem initQueues_mapped (n a : ℕ) (st : State) : QueuesMapped n a (initQueues n a st).heap
    fun p length => st.heap.next ≤ p ∧ .mmap p length ∈ (initQueues n a st).log := by
  obtain ⟨⟨kind, ht⟩, hp⟩ := initQueues_tracks n a st
  have hb := initQueues_built n a st
  generalize initQueues n a st = st' at ht hp hb
  have htable {k : ℕ} (hk : k ∈ [3, 2, 1, 0]) : Placed st.heap.next st'.heap [k] :=
    hp _ (List.mem_map_of_mem hk)
  have hmapped {i : ℕ} {path : List ℕ} (hplaced : Placed st.heap.next st'.heap (i :: path)) :
      st'.heap.follow (i :: path) ≠ 0 ∧ st.heap.next ≤ st'.heap.follow (i :: path) ∧
        .mmap (st'.heap.follow (i :: path)) ((Kind.at (i :: path)).length n a) ∈ st'.log :=
    ⟨hplaced.follow_ne_zero ht.globals_lt, hplaced.2, ht.mapped_follow hplaced⟩
  have hfirst {k : ℕ} (hk : k ∈ [3, 2, 1, 0]) := hmapped (htable hk)
  have hsecond {k i : ℕ} (hk : k ∈ [3, 2, 1, 0]) (h0 : st'.heap.follow [i, k] ≠ 0) :=
    hmapped (ht.placed_cons (htable hk) h0)
  have hthird {k i j : ℕ} (hk : k ∈ [3, 2, 1, 0]) (h0 : st'.heap.follow [i, k] ≠ 0)
      (h0' : st'.heap.follow [j, i, k] ≠ 0) :=
    (hmapped (ht.placed_cons (ht.placed_cons (htable hk) h0) h0')).2
  have hucvf {i : ℕ} (hi : i < n) : st'.heap.follow [i, Global.ucvfQueues.index] ≠ 0 :=
    ((Nat.zero_le _).trans_lt (hb.ucvf.rows.gt i hi)).ne'
  have hqueues {i : ℕ} (hi : i < n) : st'.heap.follow [i, Global.queues.index] ≠ 0 :=
    ((Nat.zero_le _).trans_lt (hb.queues.rows.gt i hi)).ne'
  refine ⟨⟨hfirst (by decide), ?_⟩, ?_, ⟨hfirst (by decide), ?_⟩, ?_, ⟨hfirst (by decide), ?_⟩,
    ⟨hfirst (by decide), ?_⟩⟩
  · intro i hi
    exact hsecond (by decide) (hucvf hi)
  · intro i hi j h0
    exact hthird (by decide) (hucvf hi) h0
  · intro i hi
    exact hsecond (by decide) (hqueues hi)
  · intro i hi j h0
    exact hthird (by decide) (hqueues hi) h0
  · intro i hi
    exact hsecond (by decide) ((hb.commit.row i).2 hi)
  · intro i hi
    exact hsecond (by decide) ((hb.reverse.row i).2 hi)

/-! ## The number of regions -/

theorem regionsMapped_length (log : List Event) : (regionsMapped log).length = mmaps log := by
  rw [regionsMapped, List.length_filterMap_eq_countP, mmaps]
  refine List.countP_congr ?_
  intro ev _
  cases ev <;> simp

theorem regionsUnmapped_length (log : List Event) : (regionsUnmapped log).length = munmaps log := by
  rw [regionsUnmapped, List.length_filterMap_eq_countP, munmaps]
  refine List.countP_congr ?_
  intro ev _
  cases ev <;> simp

/-- The number of calls of `mmap` so far. -/
def mapCount (st : State) : ℕ := mmaps st.log

theorem mmap_mapCount (b i length : ℕ) :
    Adds (fun _ => True) mapCount 1 (State.mmap b i length) := by
  intro st _
  exact ⟨trivial, by simp [mapCount, mmaps]⟩

theorem swQueueReset_mapCount (queue : ℕ) :
    Adds (fun _ => True) mapCount 0 (Trans.swQueueReset queue) := by
  have hclear (j : ℕ) : Adds (fun _ => True) mapCount 0 (clearSlot queue j) := by
    intro st _
    exact ⟨trivial, by simp [mapCount, mmaps, clearSlot]⟩
  intro st hst
  exact Adds.forLoop_const 0 queueSize (fun j _ _ => hclear j)
    (st.setQueue queue { st.queue queue with head := 0, tail := 0, finished := 0 }) hst

theorem swQueueCreate_mapCount (b i : ℕ) :
    Adds (fun _ => True) mapCount 1 (swQueueCreate b i) := by
  have hreset : Adds (fun _ => True) mapCount 0
      fun st : State => Trans.swQueueReset (st.heap.word b i) st :=
    fun st => swQueueReset_mapCount _ st
  have hcreate := (mmap_mapCount b i sizeofQueue).comp hreset
  exact hcreate

theorem initQueues_mapCount (n a : ℕ) :
    Adds (fun _ => True) mapCount (Simple.tablesCost 1 1 n a) (Trans.initQueues n a) :=
  buildTables_adds (fun g => State.mmap globals g.index (tableLength n a g))
    (fun g i st => st.mmap (st.global g) i (rowLength n a g))
    (fun e st => swQueueCreate (regionOf st.heap e).1 (regionOf st.heap e).2 st)
    (fun g => mmap_mapCount globals g.index (tableLength n a g))
    (fun g i st => mmap_mapCount (st.global g) i (rowLength n a g) st)
    (fun _ st => swQueueCreate_mapCount _ _ st) n a

theorem tablesCost_mul (c n a : ℕ) :
    Simple.tablesCost c c n a = c * Simple.tablesCost 1 1 n a := by
  have hsum : ∑ i ∈ Finset.range n, (c + (n - (i + 1)) * c) =
      c * ∑ i ∈ Finset.range n, (1 + (n - (i + 1)) * 1) := by
    rw [Finset.mul_sum]
    refine Finset.sum_congr rfl ?_
    intro i _
    ring
  rw [Simple.tablesCost, hsum, Simple.tablesCost]
  ring

/-! ## The result for the queues -/

/-- What the program does with the queues between `init_queues` and
    `fini_queues`. -/
inductive QueueUse
  | produce (e : Entry) (value : Cell64)
  | consume (e : Entry)

def QueueUse.exec (st : State) : QueueUse → Except State State
  | produce e value => Trans.swQueueProduce e value st
  | consume e => (Trans.swQueueConsume e st).map Prod.snd

theorem QueueUse.exec_heap (h : Heap) (use : QueueUse) :
    Keeps (fun st : State => st.heap = h) fun st => use.exec st := by
  intro st hst
  cases use with
  | produce e value =>
    exact (swQueueProduce_same e value st State.heap (fun _ _ => rfl) fun _ _ _ => rfl).trans hst
  | consume e =>
    have hconsume : KeepsVal (fun st : State => st.heap = h) (Trans.swQueueConsume e) :=
      fun st hst => (afterConsume_heap e st).trans hst
    exact hconsume.drop st hst

theorem uses_heap (uses : List QueueUse) (st : State) :
    (last (uses.foldlM QueueUse.exec st)).heap = st.heap :=
  Keeps.foldlM (fun use _ => QueueUse.exec_heap st.heap use) st rfl

/-- **`fini_queues` releases exactly what `init_queues` mapped**, whatever the
    traffic in between, and wherever it ends: every region once and with the
    length it was mapped with, and nothing else; no table is read after it is
    unmapped, and what is freed was created. -/
theorem finiQueues_releases (n a : ℕ) (uses : List QueueUse) (st : State) :
    let built := Trans.initQueues n a { st with log := [] }
    let used := last (uses.foldlM QueueUse.exec built)
    let freed := finiQueues n a { used with log := [] }
    (regionsUnmapped freed.log).Perm (regionsMapped built.log) ∧
    ((regionsMapped built.log).map Prod.fst).Nodup ∧
    (∀ p l₁ l₂, freed.log = l₁ ++ .load p :: l₂ →
      (∃ length, (p, length) ∈ regionsMapped built.log) ∧ ∀ length, .munmap p length ∉ l₂) ∧
    ∀ p length, .munmap p length ∈ freed.log →
      p ≠ 0 ∧ (p, length) ∈ regionsMapped built.log := by
  intro built used freed
  have hheap : { used with log := [] }.heap = built.heap := uses_heap uses built
  obtain ⟨D, hr⟩ := finiQueues_released (initQueues_mapped n a { st with log := [] }) hheap rfl
  have hsub : ∀ r ∈ regionsUnmapped freed.log, r ∈ regionsMapped built.log := by
    rintro ⟨p, length⟩ hmem
    exact mem_regionsMapped.2 (hr.unmapped p length (mem_regionsUnmapped.1 hmem)).1.2
  have hnodup : (regionsUnmapped freed.log).Nodup := hr.nodup.of_map _
  have hcount : (regionsMapped built.log).length ≤ (regionsUnmapped freed.log).length := by
    have hmaps : mapCount built = Simple.tablesCost 1 1 n a :=
      (initQueues_mapCount n a { st with log := [] } trivial).2.trans (Nat.zero_add _)
    have hunmaps : freedWeight freed = Simple.tablesCost 500 500 n a := by
      have hb : Built n a built.heap := initQueues_built n a _
      exact (finiQueues_adds hb _ hheap).2.trans (Nat.zero_add _)
    rw [tablesCost_mul] at hunmaps
    rw [regionsMapped_length, regionsUnmapped_length]
    show mapCount built ≤ _
    have hweight : freedWeight freed = 500 * munmaps freed.log := rfl
    omega
  have hperm := (List.subperm_of_subset hnodup hsub).perm_of_length_le hcount
  refine ⟨hperm, (hperm.map Prod.fst).nodup_iff.1 hr.nodup, ?_, ?_⟩
  · intro p l₁ l₂ heq
    obtain ⟨⟨length, hmap⟩, hnot⟩ := hr.loads p l₁ l₂ heq
    exact ⟨⟨length, mem_regionsMapped.2 hmap.2⟩, hnot⟩
  · intro p length hmem
    have hgt := st.heap.next_gt
    have hle : st.heap.next ≤ p := (hr.unmapped p length hmem).1.1
    exact ⟨by omega, hsub _ (mem_regionsUnmapped.2 hmem)⟩

/-! ## `fini_packets` -/

/-- `fini_packets` releases exactly what `init_packets` mapped, when it is
    called after it. -/
def PacketsReleased (n : ℕ) (st : State) : Prop :=
  let built := initPackets n { st with log := [] }
  let freed := finiPackets n { built with log := [] }
  (regionsUnmapped freed.log).Perm (regionsMapped built.log)

/-- The pool of the commit process is the region `p`. -/
structure CommitPool (p : ℕ) (st : State) : Prop where
  ne_zero : p ≠ 0
  pointer : st.heap.follow [Global.commitProcessPacketBegin.index] = p
  mapped : .mmap p (sizeofPacket * packetPoolSize) ∈ st.log

theorem CommitPool.mmap {p b : ℕ} (h : CommitPool p st)
    (hplace : ¬ (b = globals ∧ i = Global.commitProcessPacketBegin.index)) (length : ℕ) :
    CommitPool p (st.mmap b i length) where
  ne_zero := h.ne_zero
  pointer := by
    have hgt : globals < st.heap.next := st.heap.next_gt
    show st.heap.wordAt b i globals Global.commitProcessPacketBegin.index = p
    rw [Heap.wordAt, if_neg fun hc => hplace ⟨hc.2.1.symm, hc.2.2.symm⟩, if_neg hgt.ne]
    exact h.pointer
  mapped := List.mem_cons_of_mem _ h.mapped

/-- What `init_packets` does once the pools of the workers are mapped. -/
theorem initPackets_eq (n : ℕ) (st : State) : ∃ st₁ : State, initPackets n st =
    forLoop 0 n 1 (fun i st =>
      st.mmap (st.global .packetChunkBegins) i (sizeofPacketChunk * packetPoolSize))
      (State.mmap globals Global.packetChunkNexts.index (sizeofPtr * n)
        (State.mmap globals Global.packetChunkEnds.index (sizeofPtr * n)
          (State.mmap globals Global.packetChunkBegins.index (sizeofPtr * n)
            { st₁.mmap globals Global.commitProcessPacketBegin.index
              (sizeofPacket * packetPoolSize) with commitPool := .mapped }))) := ⟨_, rfl⟩

theorem initPackets_commitPool (n : ℕ) (st : State) : ∃ p, CommitPool p (initPackets n st) := by
  obtain ⟨st₁, heq⟩ := initPackets_eq n st
  rw [heq]
  refine ⟨st₁.heap.next, forLoop_keeps (CommitPool st₁.heap.next) ?_ ?_⟩
  · intro i _ _ st hst
    exact hst.mmap (fun hc => st.heap.ne_one _ _ hc.1) _
  · refine CommitPool.mmap (CommitPool.mmap (CommitPool.mmap ?_ (by decide) _) (by decide) _)
      (by decide) _
    have hgt := st₁.heap.next_gt
    exact ⟨by omega, mapAt_self Nat.one_ne_zero _ _, List.mem_cons_self⟩

/-- In the heap `h` the region `p` is not unmapped. -/
structure Kept (h : Heap) (p : ℕ) (st : State) : Prop where
  heap_eq : st.heap = h
  kept : ∀ length, .munmap p length ∉ st.log

theorem Kept.munmap {p : ℕ} (hk : Kept h p st) (hne : h.follow π ≠ p) (length : ℕ) :
    Kept h p (st.munmap (h.follow π) length) where
  heap_eq := hk.heap_eq
  kept length' hmem := by
    rcases List.mem_cons.1 hmem with heq | hmem
    · exact hne (Event.munmap.inj heq).1.symm
    · exact hk.kept length' hmem

theorem Kept.unmapAt {p : ℕ} (hk : Kept h p st) (hne : h.follow [i, g.index] ≠ p) (length : ℕ) :
    Kept h p (unmapAt g i length st) := by
  obtain rfl := hk.heap_eq
  rw [unmapAt_eq]
  have hload : Kept st.heap p (st.load (st.heap.follow [g.index]) i).2 := by
    refine ⟨rfl, ?_⟩
    intro length' hmem
    refine hk.kept length' ?_
    simpa using hmem
  exact hload.munmap hne length

/-- Of the pointers that start at other global variables none leads to the
    pool of the commit process. -/
theorem finiPackets_kept {p : ℕ} (n : ℕ) (h0 : p ≠ 0)
    (hp : h.follow [Global.commitProcessPacketBegin.index] = p) (hk : Kept h p st) :
    Kept h p (finiPackets n st) := by
  have hne {path : List ℕ} (hpath : path ≠ [Global.commitProcessPacketBegin.index]) :
      h.follow path ≠ p := by
    intro heq
    rw [← hp] at heq h0
    exact hpath (h.follow_inj (heq ▸ h0) heq)
  have hglobal {st' : State} (hk' : Kept h p st') (g : Global)
      (hg : [g.index] ≠ [Global.commitProcessPacketBegin.index]) (length : ℕ) :
      Kept h p (st'.munmap (st'.global g) length) := by
    have hptr : st'.global g = h.follow [g.index] := by
      rw [← hk'.heap_eq]
      rfl
    rw [hptr]
    exact hk'.munmap (hne hg) length
  have hloop : Kept h p (forLoop 0 n 1 (fun i st =>
      Trans.unmapAt .packetChunkBegins i (sizeofPacket * packetPoolSize)
        (Trans.unmapAt .packetBegins i (sizeofPacket * packetPoolSize) st)) st) := by
    refine forLoop_keeps (Kept h p) ?_ hk
    intro i _ _ st hst
    exact (hst.unmapAt (hne (by simp)) _).unmapAt (hne (by simp)) _
  have hbegins := hglobal hloop .packetBegins (by decide) (sizeofPtr * n)
  have hends := hglobal hbegins .packetEnds (by decide) (sizeofPtr * n)
  have hnexts := hglobal hends .packetNexts (by decide) (sizeofPtr * n)
  have hchunkBegins := hglobal hnexts .packetChunkBegins (by decide) (sizeofPtr * n)
  have hchunkEnds := hglobal hchunkBegins .packetChunkEnds (by decide) (sizeofPtr * n)
  exact hglobal hchunkEnds .packetChunkNexts (by decide) (sizeofPtr * n)

/-- The pool of the commit process stays mapped. -/
theorem commitPool_leaks (n : ℕ) (st : State) :
    let built := initPackets n { st with log := [] }
    let freed := finiPackets n { built with log := [] }
    ∃ r ∈ regionsMapped built.log, r ∉ regionsUnmapped freed.log := by
  intro built freed
  obtain ⟨p, hpool⟩ := initPackets_commitPool n { st with log := [] }
  have hkept : Kept built.heap p freed :=
    finiPackets_kept n hpool.ne_zero hpool.pointer ⟨rfl, fun _ hmem => absurd hmem List.not_mem_nil⟩
  refine ⟨_, mem_regionsMapped.2 hpool.mapped, ?_⟩
  intro hmem
  exact hkept.kept _ (mem_regionsUnmapped.1 hmem)

/-- **`fini_packets` never releases what `init_packets` mapped**: whatever the
    number of workers, the pool of the commit process stays mapped. -/
theorem finiPackets_leaks (n : ℕ) (st : State) : ¬ PacketsReleased n st := by
  intro hperm
  obtain ⟨r, hmem, hnot⟩ := commitPool_leaks n st
  exact hnot (hperm.mem_iff.2 hmem)

/-- One worker. -/
theorem not_packetsReleased_one : ¬ PacketsReleased 1 .init := by
  intro hperm
  obtain ⟨r, hmem, hnot⟩ := commitPool_leaks 1 .init
  exact hnot (hperm.mem_iff.2 hmem)

end SpecPriv.Compare
