/-
  The regions that `init_queues` maps, and the lengths it maps them with.

  Every region has a kind, which says what its words lead to and how long it
  is.  A call of `mmap` is right if the region in which its pointer is stored
  has a kind that leads to a region of that length (`Typed.mmap`).

  `initQueues_typed`: all of `init_queues` is right, so that every pointer in
  its tables leads to a region of the length that the place of the pointer
  calls for (`QueueRegions`).
-/
import SpecPriv.Trans.Tables

namespace SpecPriv.Trans

open Loop Regions Heap

/-- The regions that the calls of `mmap` in a log map, latest first. -/
def regionsMapped (log : List Event) : List (ℕ × ℕ) := log.filterMap fun
  | .mmap addr length => some (addr, length)
  | _ => none

/-- The regions that the calls of `munmap` in a log unmap, latest first. -/
def regionsUnmapped (log : List Event) : List (ℕ × ℕ) := log.filterMap fun
  | .munmap addr length => some (addr, length)
  | _ => none

theorem mem_regionsMapped {log : List Event} {p length : ℕ} :
    (p, length) ∈ regionsMapped log ↔ .mmap p length ∈ log := by
  unfold regionsMapped
  rw [List.mem_filterMap]
  constructor
  · rintro ⟨ev, hev, heq⟩
    cases ev with
    | mmap p' length' =>
      obtain ⟨rfl, rfl⟩ := Prod.mk.inj (Option.some.inj heq)
      exact hev
    | _ => cases heq
  · intro hev
    exact ⟨_, hev, rfl⟩

theorem mem_regionsUnmapped {log : List Event} {p length : ℕ} :
    (p, length) ∈ regionsUnmapped log ↔ .munmap p length ∈ log := by
  unfold regionsUnmapped
  rw [List.mem_filterMap]
  constructor
  · rintro ⟨ev, hev, heq⟩
    cases ev with
    | munmap p' length' =>
      obtain ⟨rfl, rfl⟩ := Prod.mk.inj (Option.some.inj heq)
      exact hev
    | _ => cases heq
  · intro hev
    exact ⟨_, hev, rfl⟩

/-! ## Kinds of regions -/

/-- What a region holds. -/
inductive Kind
  | globals
  | table (g : Global)
  | row (g : Global)
  | queue

/-- The variable in a word of the globals. -/
def Global.ofIndex : ℕ → Global
  | 0 => .ucvfQueues
  | 1 => .queues
  | 2 => .commitQueues
  | _ => .reverseCommitQueues

/-- What the words of a region lead to. -/
def Kind.child : Kind → ℕ → Kind
  | globals, i => table (Global.ofIndex i)
  | table .ucvfQueues, _ => row .ucvfQueues
  | table .queues, _ => row .queues
  | _, _ => queue

/-- The length of a region, for `n` workers and `a` aux workers. -/
def Kind.length (n a : ℕ) : Kind → ℕ
  | globals => 0
  | table .commitQueues => sizeofPtr * a
  | table _ => sizeofPtr * n
  | row .queues => sizeofPtr * a
  | row _ => sizeofPtr * n
  | queue => sizeofQueue

/-- The regions from `start` on have these kinds, and were mapped with their
    lengths; pointers to them are where their kinds allow it. -/
structure Typed (n a start : ℕ) (kind : ℕ → Kind) (st : State) : Prop where
  start_le : start ≤ st.heap.next
  globals_lt : globals < start
  globals_eq : kind globals = .globals
  child : ∀ b j, start ≤ st.heap.word b j → kind (st.heap.word b j) = (kind b).child j
  closed : ∀ b j, start ≤ b → b < st.heap.next → st.heap.word b j ≠ 0 → start ≤ st.heap.word b j
  mapped : ∀ b, start ≤ b → b < st.heap.next → .mmap b ((kind b).length n a) ∈ st.log

/-- The regions from `start` on have some kinds. -/
def WellTyped (n a start : ℕ) (st : State) : Prop := ∃ kind, Typed n a start kind st

variable {n a start b i length : ℕ} {kind : ℕ → Kind} {st : State}

/-- A call of `mmap` whose region has the kind that its place calls for. -/
theorem Typed.mmap (h : Typed n a start kind st) (hb : b < st.heap.next)
    (hlen : length = ((kind b).child i).length n a) :
    Typed n a start (Function.update kind st.heap.next ((kind b).child i))
      (st.mmap b i length) := by
  have hstart := h.start_le
  have hglobals := h.globals_lt
  have hold : ∀ c, c ≠ st.heap.next →
      Function.update kind st.heap.next ((kind b).child i) c = kind c :=
    fun _ hc => Function.update_of_ne hc _ _
  have hword : ∀ c j, (st.heap.mapAt b i).word c j =
      if b ≠ 0 ∧ c = b ∧ j = i then st.heap.next
      else if c = st.heap.next then 0 else st.heap.word c j := fun _ _ => rfl
  refine ⟨hstart.trans (Nat.le_succ _), h.globals_lt, ?_, ?_, ?_, ?_⟩
  · rw [hold _ (by omega), h.globals_eq]
  · intro c j
    rw [State.mmap_heap, hword]
    split_ifs with h1 h2
    · rintro -
      obtain ⟨-, rfl, rfl⟩ := h1
      rw [Function.update_self, hold _ hb.ne]
    · intro h0
      omega
    · intro hle
      rw [hold _ (st.heap.lt_next c j).ne, hold _ h2]
      exact h.child c j hle
  · intro c j hc hlt
    rw [State.mmap_heap, hword]
    split_ifs with h1 h2
    · exact fun _ => hstart
    · exact fun h0 => absurd rfl h0
    · exact h.closed c j hc ((Nat.lt_succ_iff_lt_or_eq.1 hlt).resolve_right h2)
  · intro c hc hlt
    rcases Nat.lt_succ_iff_lt_or_eq.1 hlt with hlt | rfl
    · rw [hold c hlt.ne]
      exact List.mem_cons_of_mem _ (h.mapped c hc hlt)
    · rw [Function.update_self, ← hlen]
      exact List.mem_cons_self

/-- Where a region of the tables is found, given by the indices that lead to
    it from the globals, the last one first. -/
def Placed (start : ℕ) (h : Heap) : List ℕ → Prop
  | [] => True
  | i :: path => Placed start h path ∧ start ≤ h.word (h.follow path) i

/-- The kind of the region that a path leads to. -/
def Kind.at : List ℕ → Kind
  | [] => .globals
  | i :: path => (Kind.at path).child i

/-- The region that a placed path leads to has the kind of the path. -/
theorem Typed.kind_follow (h : Typed n a start kind st) : ∀ {path : List ℕ},
    Placed start st.heap path → kind (st.heap.follow path) = Kind.at path
  | [], _ => h.globals_eq
  | i :: path, hp => by
    rw [follow, h.child _ _ hp.2, h.kind_follow hp.1]
    rfl

/-- It was mapped with the length of its kind. -/
theorem Typed.mapped_follow (h : Typed n a start kind st) {i : ℕ} {path : List ℕ}
    (hp : Placed start st.heap (i :: path)) :
    .mmap (st.heap.follow (i :: path)) ((Kind.at (i :: path)).length n a) ∈ st.log := by
  rw [← h.kind_follow hp]
  exact h.mapped _ hp.2 (st.heap.lt_next _ _)

/-- A path of pointers that are not null is placed if its first one is. -/
theorem Typed.placed_cons (h : Typed n a start kind st) {i j : ℕ} {path : List ℕ}
    (hp : Placed start st.heap (j :: path)) (hne : st.heap.follow (i :: j :: path) ≠ 0) :
    Placed start st.heap (i :: j :: path) :=
  ⟨hp, h.closed _ _ hp.2 (st.heap.lt_next _ _) hne⟩

theorem Placed.follow_ne_zero {h : Heap} (hstart : globals < start) : ∀ {path : List ℕ},
    Placed start h path → h.follow path ≠ 0
  | [], _ => Nat.one_ne_zero
  | i :: path, hp => by
    have hle : start ≤ h.follow (i :: path) := hp.2
    omega

/-- Mapping a region leaves the paths that do not go through its place. -/
theorem Placed.mapAt {h : Heap} (hstart : globals < start) {i : ℕ} {π : List ℕ} :
    ∀ {path : List ℕ}, Placed start h path → ¬ (i :: π) <:+ path →
      Placed start (h.mapAt (h.follow π) i) path ∧
        (h.mapAt (h.follow π) i).follow path = h.follow path
  | [], _, _ => ⟨trivial, rfl⟩
  | j :: path, hp, hne => by
    obtain ⟨hp', hsame⟩ := Placed.mapAt hstart hp.1 fun hs =>
      hne (hs.trans (List.suffix_cons j path))
    have hword : (h.mapAt (h.follow π) i).word (h.follow path) j = h.word (h.follow path) j := by
      show h.wordAt (h.follow π) i (h.follow path) j = _
      have hplace : ¬ (h.follow π ≠ 0 ∧ h.follow path = h.follow π ∧ j = i) := by
        rintro ⟨-, heq, rfl⟩
        rw [h.follow_inj (hp.1.follow_ne_zero hstart) heq] at hne
        exact hne (List.suffix_refl _)
      have hnew : h.follow path ≠ h.next := by
        cases path with
        | nil => exact h.next_gt.ne
        | cons k path => exact (h.lt_next _ _).ne
      rw [Heap.wordAt, if_neg hplace, if_neg hnew]
    refine ⟨⟨hp', ?_⟩, ?_⟩
    · rw [hsame, hword]
      exact hp.2
    · rw [follow, hsame, hword]
      rfl

/-! ## `init_queues` -/

/-- The regions have kinds, and some paths are placed. -/
structure Tracks (n a start : ℕ) (paths : List (List ℕ)) (st : State) : Prop where
  typed : WellTyped n a start st
  placed : ∀ path ∈ paths, Placed start st.heap path

variable {paths : List (List ℕ)} {π : List ℕ}

theorem Tracks.weaken {paths' : List (List ℕ)} (h : Tracks n a start paths st)
    (hsub : paths' ⊆ paths) : Tracks n a start paths' st :=
  ⟨h.typed, fun path hp => h.placed path (hsub hp)⟩

/-- Only the heap and the calls of `mmap` matter. -/
theorem Tracks.congr {st' : State} (h : Tracks n a start paths st) (hheap : st'.heap = st.heap)
    (hlog : ∀ ev ∈ st.log, ev ∈ st'.log) : Tracks n a start paths st' := by
  obtain ⟨⟨kind, hk⟩, hp⟩ := h
  refine ⟨⟨kind, ?_⟩, ?_⟩
  · refine ⟨?_, hk.globals_lt, hk.globals_eq, ?_, ?_, ?_⟩
    · rw [hheap]
      exact hk.start_le
    · rw [hheap]
      exact hk.child
    · rw [hheap]
      exact hk.closed
    · rw [hheap]
      exact fun b hb hlt => hlog _ (hk.mapped b hb hlt)
  · rw [hheap]
    exact hp

/-- A region of the right length is mapped into a new place. -/
theorem Tracks.mmap (h : Tracks n a start paths st) (hπ : Placed start st.heap π)
    (hnew : ∀ path ∈ paths, ¬ (i :: π) <:+ path)
    (hlen : length = (Kind.at (i :: π)).length n a) :
    Tracks n a start ((i :: π) :: paths) (st.mmap (st.heap.follow π) i length) := by
  obtain ⟨⟨kind, hk⟩, hp⟩ := h
  have hlt : st.heap.follow π < st.heap.next := by
    cases π with
    | nil => exact st.heap.next_gt
    | cons j π => exact st.heap.lt_next _ _
  refine ⟨⟨_, hk.mmap hlt ?_⟩, ?_⟩
  · rw [hk.kind_follow hπ]
    exact hlen
  · intro path hpath
    rcases List.mem_cons.1 hpath with rfl | hpath
    · have hself : ¬ (i :: π) <:+ π := by
        intro hs
        have := hs.length_le
        simp at this
      obtain ⟨hp', hsame⟩ := hπ.mapAt hk.globals_lt hself
      refine ⟨hp', ?_⟩
      rw [State.mmap_heap, hsame, mapAt_self (hπ.follow_ne_zero hk.globals_lt)]
      exact hk.start_le
    · exact ((hp path hpath).mapAt hk.globals_lt (hnew path hpath)).1

theorem swQueueReset_log (p : ℕ) (st : State) : ∀ ev ∈ st.log, ev ∈ (swQueueReset p st).log := by
  intro ev hev
  exact forLoop_keeps (fun st' : State => ev ∈ st'.log)
    (fun _ _ _ _ h => List.mem_cons_of_mem _ h) hev

theorem Tracks.create (h : Tracks n a start paths st) (hπ : Placed start st.heap π)
    (hnew : ∀ path ∈ paths, ¬ (i :: π) <:+ path) (hkind : Kind.at (i :: π) = .queue) :
    Tracks n a start ((i :: π) :: paths) (swQueueCreate (st.heap.follow π) i st) := by
  have hlen : sizeofQueue = (Kind.at (i :: π)).length n a := by
    rw [hkind]
    rfl
  exact (h.mmap hπ hnew hlen).congr (swQueueReset_heap _) (swQueueReset_log _ _)

/-- A longer path is no suffix. -/
theorem not_suffix_of_length {path path' : List ℕ} (h : path'.length < path.length) :
    ¬ path <:+ path' :=
  fun hs => h.not_ge hs.length_le

/-- Global variables that are tracked. -/
abbrev tables (ks : List ℕ) : List (List ℕ) := ks.map fun k => [k]

variable {k : ℕ} {ks : List ℕ}

theorem Tracks.table (h : Tracks n a start (tables ks) st) (hk : k ∉ ks)
    (hlen : length = (Kind.at [k]).length n a) :
    Tracks n a start (tables (k :: ks)) (st.mmap globals k length) := by
  refine h.mmap trivial ?_ hlen
  intro path hpath hs
  obtain ⟨k', hk', rfl⟩ := List.mem_map.1 hpath
  obtain rfl := List.singleton_inj.1 (hs.eq_of_length rfl)
  exact hk hk'

/-- A loop that creates queues in the words of a region. -/
theorem Tracks.createLoop (h : Tracks n a start paths st) (lo hi : ℕ) (hπ : π ∈ paths)
    (hlong : ∀ path ∈ paths, path.length ≤ π.length) (hkind : ∀ j, Kind.at (j :: π) = .queue) :
    Tracks n a start paths
      (forLoop lo hi 1 (fun j st => swQueueCreate (st.heap.follow π) j st) st) := by
  refine forLoop_keeps (Tracks n a start paths) ?_ h
  intro j _ _ st hst
  have hcreate := hst.create (i := j) (hst.placed π hπ)
    (fun path hpath => not_suffix_of_length (Nat.lt_succ_of_le (hlong path hpath))) (hkind j)
  exact hcreate.weaken (List.subset_cons_self _ _)

/-- A table whose words lead to queues. -/
theorem Tracks.queueTable (h : Tracks n a start (tables ks) st) {hi : ℕ} (hk : k ∉ ks)
    (hlen : length = (Kind.at [k]).length n a) (hkind : ∀ j, Kind.at [j, k] = .queue) :
    Tracks n a start (tables (k :: ks))
      (forLoop 0 hi 1 (fun j st => swQueueCreate (st.heap.word globals k) j st)
        (st.mmap globals k length)) := by
  refine (h.table hk hlen).createLoop 0 hi (π := [k]) List.mem_cons_self ?_ hkind
  intro path hpath
  obtain ⟨k', -, rfl⟩ := List.mem_map.1 hpath
  exact le_rfl

/-- A table whose words lead to rows of queues. -/
theorem Tracks.grid (h : Tracks n a start (tables ks) st) {length' rows : ℕ} {lo : ℕ → ℕ}
    {hi : ℕ} (hk : k ∉ ks) (hlen : length = (Kind.at [k]).length n a)
    (hlen' : ∀ i, length' = (Kind.at [i, k]).length n a)
    (hkind : ∀ j i, Kind.at [j, i, k] = .queue) :
    Tracks n a start (tables (k :: ks))
      (forLoop 0 rows 1 (fun i st =>
        forLoop (lo i) hi 1
          (fun j st => swQueueCreate (st.heap.word (st.heap.word globals k) i) j st)
          (st.mmap (st.heap.word globals k) i length')) (st.mmap globals k length)) := by
  refine forLoop_keeps (Tracks n a start (tables (k :: ks))) ?_ (h.table hk hlen)
  intro i _ _ st hst
  have hshort : ∀ path ∈ tables (k :: ks), path.length ≤ 1 := by
    intro path hpath
    obtain ⟨k', -, rfl⟩ := List.mem_map.1 hpath
    exact le_rfl
  have hrow := hst.mmap (hst.placed [k] List.mem_cons_self)
    (fun path hpath => not_suffix_of_length (Nat.lt_succ_of_le (hshort path hpath))) (hlen' i)
  have hlong : ∀ path ∈ [i, k] :: tables (k :: ks), path.length ≤ [i, k].length := by
    intro path hpath
    rcases List.mem_cons.1 hpath with rfl | hpath
    · exact le_rfl
    · exact (hshort path hpath).trans (Nat.le_succ 1)
  have hqueues := hrow.createLoop (lo i) hi List.mem_cons_self hlong (hkind · i)
  exact hqueues.weaken (List.subset_cons_self _ _)

/-- Before `init_queues` nothing is tracked. -/
theorem Tracks.nil (n a : ℕ) (st : State) : Tracks n a st.heap.next [] st where
  typed := by
    refine ⟨fun _ => .globals, le_rfl, st.heap.next_gt, rfl, ?_, ?_, ?_⟩
    · intro b j hle
      exact absurd hle (st.heap.lt_next b j).not_ge
    · intro b j hle hlt
      omega
    · intro b hle hlt
      omega
  placed _ hpath := absurd hpath List.not_mem_nil

/-- Every region that `init_queues` maps has the kind and the length that its
    place calls for. -/
theorem initQueues_tracks (n a : ℕ) (st : State) :
    Tracks n a st.heap.next (tables [3, 2, 1, 0]) (initQueues n a st) := by
  refine Tracks.queueTable ?_ (by simp) rfl fun _ => rfl
  refine Tracks.queueTable ?_ (by simp) rfl fun _ => rfl
  refine Tracks.grid ?_ (by simp) rfl (fun _ => rfl) fun _ _ => rfl
  exact (Tracks.nil n a st).grid (by simp) rfl (fun _ => rfl) fun _ _ => rfl

end SpecPriv.Trans
