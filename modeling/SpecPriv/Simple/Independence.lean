/-
  What an invocation takes over from the state it begins in.

  `begin_invocation` clears the cells of `Config.reset` and a rectangle of the
  prediction buffers, and leaves everything else: `beginInvocation_begins`.
  The calls that follow read the cells of `Config.readCells`, `num_ro_pages`,
  the predictions and their sizes.  `independent_iff`: the calls do the same
  after two states, from the same values, iff the states agree on what is read
  and was not cleared.
-/
import SpecPriv.Simple.Prediction
import SpecPriv.Simple.Rows

namespace SpecPriv.Simple

open Loop

/-! ## The tables -/

/-- The cells of `D` were set to zero, and nothing else that a call reads was
    changed. -/
structure Clears (D : Set Tally) (st st' : State) : Prop where
  zero : ∀ cell ∈ D, st'.tally cell = 0
  same : ∀ cell ∉ D, st'.tally cell = st.tally cell
  numRoPages : st'.numRoPages = st.numRoPages
  prediction : st'.prediction = st.prediction
  isVer : st'.isVer = st.isVer

variable {D D' : Set Tally} {st st' st'' : State} {c : Config}

namespace Clears

theorem of_tally (ht : st'.tally = st.tally) (hr : st'.numRoPages = st.numRoPages)
    (hp : st'.prediction = st.prediction) (hv : st'.isVer = st.isVer) : Clears ∅ st st' where
  zero _ h := h.elim
  same cell _ := congrFun ht cell
  numRoPages := hr
  prediction := hp
  isVer := hv

theorem trans (h : Clears D st st') (h' : Clears D' st' st'') : Clears (D ∪ D') st st'' where
  zero cell hcell := by
    by_cases hD' : cell ∈ D'
    · exact h'.zero cell hD'
    · rw [h'.same cell hD']
      exact h.zero cell (hcell.resolve_right hD')
  same cell hcell := by
    rw [h'.same cell fun hD' => hcell (Or.inr hD'), h.same cell fun hD => hcell (Or.inl hD)]
  numRoPages := h'.numRoPages.trans h.numRoPages
  prediction := h'.prediction.trans h.prediction
  isVer := h'.isVer.trans h.isVer

theorem congr (h : Clears D st st') (hD : ∀ cell, cell ∈ D' ↔ cell ∈ D) : Clears D' st st' where
  zero cell hcell := h.zero cell ((hD cell).1 hcell)
  same cell hcell := h.same cell fun hD' => hcell ((hD cell).2 hD')
  numRoPages := h.numRoPages
  prediction := h.prediction
  isVer := h.isVer

theorem charge (n : ℕ) (st : State) : Clears ∅ st (st.charge n) := of_tally rfl rfl rfl rfl

theorem store (cell : Tally) (st : State) : Clears {cell} st (st.store cell 0) where
  zero cell' h := by rw [State.store_tally, h, Function.update_self]
  same cell' h := by rw [State.store_tally, Function.update_of_ne h]
  numRoPages := rfl
  prediction := rfl
  isVer := rfl

theorem forN {body : ℕ → State → State} {D : ℕ → Set Tally}
    (h : ∀ k st, Clears (D k) st (body k st)) (n : ℕ) (st : State) :
    Clears {cell | ∃ k < n, cell ∈ D k} st (Loop.forN n body st) := by
  induction n with
  | zero =>
    refine (of_tally rfl rfl rfl rfl).congr fun cell => ?_
    refine iff_of_false ?_ (Set.notMem_empty cell)
    rintro ⟨k, hk, -⟩
    exact Nat.not_lt_zero k hk
  | succ n ih =>
    refine (ih.trans (h n _)).congr fun cell => ?_
    constructor
    · rintro ⟨k, hk, hcell⟩
      rcases Nat.lt_succ_iff_lt_or_eq.1 hk with hlt | rfl
      · exact Or.inl ⟨k, hlt, hcell⟩
      · exact Or.inr hcell
    · rintro (⟨k, hk, hcell⟩ | hcell)
      · exact ⟨k, hk.trans n.lt_succ_self, hcell⟩
      · exact ⟨n, n.lt_succ_self, hcell⟩

/-- A loop clears what its rounds clear. -/
theorem forLoop {body : ℕ → State → State} {D : ℕ → Set Tally}
    (h : ∀ i st, Clears (D i) st (body i st)) (start stop : ℕ) (st : State) :
    Clears {cell | ∃ i, start ≤ i ∧ i < stop ∧ cell ∈ D i} st
      (Loop.forLoop start stop 1 body st) := by
  rw [Loop.forLoop, rounds_one]
  refine (forN (fun k => h (start + 1 * k)) (stop - start) st).congr fun cell => ?_
  constructor
  · rintro ⟨i, hlo, hhi, hcell⟩
    exact ⟨i - start, by omega, by rwa [Nat.one_mul, Nat.add_sub_cancel' hlo]⟩
  · rintro ⟨k, hk, hcell⟩
    exact ⟨start + 1 * k, by omega, by omega, hcell⟩

/-- A loop that clears nothing. -/
theorem forLoop_none {body : ℕ → State → State} (h : ∀ i st, Clears ∅ st (body i st))
    (start stop : ℕ) (st : State) : Clears ∅ st (Loop.forLoop start stop 1 body st) := by
  refine (forLoop h start stop st).congr fun cell => ?_
  refine iff_of_false (Set.notMem_empty cell) ?_
  rintro ⟨i, -, -, hcell⟩
  exact hcell

end Clears

/-- The cells that `init_queues` clears. -/
def Config.reset (c : Config) : Set Tally :=
  {cell | (∃ i j : ℕ, i < j ∧ j < c.width ∧ cell = .ucvf i j) ∨
    (∃ i < c.width, ∃ j < c.numAuxWorkers, cell = .queue i j) ∨
    (∃ j < c.numAuxWorkers, cell = .commit j) ∨ ∃ j < c.width, cell = .reverse j}

theorem initQueue_clears (cell : Tally) (n : ℕ) (st : State) :
    Clears {cell} st (initQueue cell n st) := by
  have hloop := Clears.forLoop_none (fun _ => Clears.charge 13) 0 n
    ((st.charge 200).store cell 0)
  refine (((Clears.charge 200 st).trans (Clears.store cell _)).trans hloop).congr fun cell' => ?_
  rw [Set.empty_union, Set.union_empty]

theorem initQueues_clears (c : Config) (st : State) :
    Clears c.reset st (initQueues c.numWorkers c.numAuxWorkers queueSize st) := by
  have hqueue (cell : ℕ → Tally) (start stop : ℕ) (st : State) :
      Clears {cell' | ∃ j, start ≤ j ∧ j < stop ∧ cell' = cell j} (st.charge 200)
        (forLoop start stop 1 (fun j => initQueue (cell j) queueSize) (st.charge 200)) :=
    Clears.forLoop (fun j => initQueue_clears (cell j) queueSize) start stop _
  have hrow (cell : ℕ → Tally) (start stop : ℕ) (st : State) :
      Clears (∅ ∪ {cell' | ∃ j, start ≤ j ∧ j < stop ∧ cell' = cell j}) st
        (forLoop start stop 1 (fun j => initQueue (cell j) queueSize) (st.charge 200)) :=
    (Clears.charge 200 st).trans (hqueue cell start stop st)
  have hucvf := fun st => Clears.forLoop
    (fun i => hrow (fun j => .ucvf (i : ℕ) j) (i + 1) c.width) 0 c.width st
  have hqueues := fun st => Clears.forLoop
    (fun i => hrow (fun j => .queue (i : ℕ) j) 0 c.numAuxWorkers) 0 c.width st
  unfold initQueues
  rw [c.numWorkers_toNat, Int.toNat_natCast]
  refine ((((((Clears.charge 200 st).trans (hucvf _)).trans (Clears.charge 200 _)).trans
    (hqueues _)).trans (hrow (fun j => .commit j) 0 c.numAuxWorkers _)).trans
    (hrow (fun j => .reverse j) 0 c.width _)).congr fun cell => ?_
  simp only [Set.empty_union, Set.union_empty]
  constructor
  · rintro (⟨i, j, hij, hj, rfl⟩ | ⟨i, hi, j, hj, rfl⟩ | ⟨j, hj, rfl⟩ | ⟨j, hj, rfl⟩)
    · exact Or.inl (Or.inl (Or.inl ⟨i, Nat.zero_le i, hij.trans hj, j, hij, hj, rfl⟩))
    · exact Or.inl (Or.inl (Or.inr ⟨i, Nat.zero_le i, hi, j, Nat.zero_le j, hj, rfl⟩))
    · exact Or.inl (Or.inr ⟨j, Nat.zero_le j, hj, rfl⟩)
    · exact Or.inr ⟨j, Nat.zero_le j, hj, rfl⟩
  · rintro (((⟨i, -, -, j, hij, hj, rfl⟩ | ⟨i, -, hi, j, -, hj, rfl⟩) | ⟨j, -, hj, rfl⟩) |
      ⟨j, -, hj, rfl⟩)
    · exact Or.inl ⟨i, j, hij, hj, rfl⟩
    · exact Or.inr (Or.inl ⟨i, hi, j, hj, rfl⟩)
    · exact Or.inr (Or.inr (Or.inl ⟨j, hj, rfl⟩))
    · exact Or.inr (Or.inr (Or.inr ⟨j, hj, rfl⟩))

/-! ## The buffers -/

/-- The predictions with the first `n` rows and `m` columns of the buffers
    cleared. -/
def Prediction.cleared (n m : ℕ) (p : Prediction) : Prediction :=
  { p with
    loopInvariantBuffer := mapEntries (fun _ _ _ => 0) n m p.loopInvariantBuffer
    linearPredictors := mapEntries (fun _ _ _ => 0) n m p.linearPredictors }

/-- The buffers change entry by entry, and the sizes do not. -/
theorem initBuffers_prediction (n m : ℕ) (st : State) :
    (initBuffers n m st).prediction = st.prediction.cleared n m := by
  have hsizes : ((initBuffers n m st).prediction.numLoopInvariantLoads,
      (initBuffers n m st).prediction.numContexts) =
      (st.prediction.numLoopInvariantLoads, st.prediction.numContexts) := by
    refine forLoop_same (fun st : State =>
      (st.prediction.numLoopInvariantLoads, st.prediction.numContexts)) ?_ _ _ _ st
    intro i st
    refine forLoop_same (fun st : State =>
      (st.prediction.numLoopInvariantLoads, st.prediction.numContexts)) ?_ _ _ _ st
    intro j st
    rfl
  have hbuffer (b : Buffer) : (initBuffers n m st).prediction.buffer b =
      mapEntries (fun _ _ _ => 0) n m (st.prediction.buffer b) := by
    rw [← forLoop_setEntry]
    refine forLoop_map (fun st : State => st.prediction.buffer b) ?_ 0 n 1 st
    intro i st
    refine forLoop_map (fun st : State => st.prediction.buffer b) ?_ 0 m 1 st
    intro j st
    cases b <;> rfl
  obtain ⟨hloads, hcontexts⟩ := Prod.mk.inj hsizes
  have hinvariants := hbuffer .loopInvariantBuffer
  have hpredictors := hbuffer .linearPredictors
  generalize (initBuffers n m st).prediction = p at hloads hcontexts hinvariants hpredictors
  cases p
  simp only [Prediction.buffer] at hloads hcontexts hinvariants hpredictors
  rw [hloads, hcontexts, hinvariants, hpredictors]
  rfl

/-- What a call reads besides the tallies and the predictions. -/
theorem initBuffers_same (nl nc : ℤ) (st : State) :
    ((initBuffers nl nc st).tally, (initBuffers nl nc st).numRoPages,
      (initBuffers nl nc st).isVer) = (st.tally, st.numRoPages, st.isVer) := by
  refine forLoop_same (fun st : State => (st.tally, st.numRoPages, st.isVer)) ?_ _ _ _ st
  intro i st
  refine forLoop_same (fun st : State => (st.tally, st.numRoPages, st.isVer)) ?_ _ _ _ st
  intro j st
  rfl

/-! ## The beginning of an invocation -/

theorem initPackets_clears (n : ℤ) (st : State) : Clears ∅ st (initPackets n st) := by
  have hloop (n : ℕ) (st : State) : Clears ∅ st (forLoop 0 n 1 (fun _ st => st.charge 200) st) :=
    Clears.forLoop_none (fun _ => Clears.charge 200) 0 n st
  exact ((hloop _ st).trans (hloop _ _)).congr fun cell => by simp

theorem initHeaps_clears (c : Config) (globalSize heapSize stackSize : ℤ) (st : State) :
    Clears ∅ st (initHeaps c globalSize heapSize stackSize st) := by
  have hloop (n : ℕ) (body : ℕ → State → State)
      (h : ∀ i st, Clears ∅ st (body i st)) (st : State) : Clears ∅ st (forLoop 0 n 1 body st) :=
    Clears.forLoop_none h 0 n st
  have hset : ∀ (i : ℕ) (st : State),
      Clears ∅ st { st with shadowHeaps := Function.update st.shadowHeaps i heapSize } ∧
      Clears ∅ st { st with shadowGlobals := Function.update st.shadowGlobals i globalSize } ∧
      Clears ∅ st { st with shadowStacks := Function.update st.shadowStacks i stackSize } :=
    fun _ _ => ⟨.of_tally rfl rfl rfl rfl, .of_tally rfl rfl rfl rfl, .of_tally rfl rfl rfl rfl⟩
  exact (((hloop _ _ (fun i st => (hset i st).1) st).trans
    (hloop _ _ (fun i st => (hset i st).2.1) _)).trans
    (hloop _ _ (fun i st => (hset i st).2.2) _)).congr fun cell => by simp

/-- What `begin_invocation` leaves of what the calls read. -/
structure Begins (c : Config) (st st' : State) : Prop where
  zero : ∀ cell ∈ c.reset, st'.tally cell = 0
  same : ∀ cell ∉ c.reset, st'.tally cell = st.tally cell
  numRoPages : st'.numRoPages = st.numRoPages
  prediction : st'.prediction = st.prediction.cleared c.maxLoads c.maxContexts
  isVer : st'.isVer = st.isVer

theorem beginInvocation_begins (c : Config) (st : State) : Begins c st (beginInvocation c st) := by
  let st₁ := initQueues c.numWorkers c.numAuxWorkers queueSize st
  let st₂ := initBuffers c.maxLoads c.maxContexts st₁
  have h₁ : Clears c.reset st st₁ := initQueues_clears c st
  have hsame := initBuffers_same c.maxLoads c.maxContexts st₁
  have htally : st₂.tally = st₁.tally := congrArg (fun r => r.1) hsame
  have hpages : st₂.numRoPages = st₁.numRoPages := congrArg (fun r => r.2.1) hsame
  have hver : st₂.isVer = st₁.isVer := congrArg (fun r => r.2.2) hsame
  have hbuffers : st₂.prediction = st₁.prediction.cleared c.maxLoads c.maxContexts :=
    initBuffers_prediction c.maxLoads c.maxContexts st₁
  have hrest : Clears ∅ st₂ (beginInvocation c st) :=
    (((initPackets_clears c.numAllWorkers st₂).trans
      (initHeaps_clears c c.maxGlobalSize c.maxHeapSize c.maxStackSize _)).trans
      (Clears.charge 200 _)).congr fun cell => by simp
  have hcell (cell : Tally) : (beginInvocation c st).tally cell = st₁.tally cell := by
    rw [hrest.same cell (Set.notMem_empty cell), htally]
  refine ⟨?_, ?_, ?_, ?_, ?_⟩
  · intro cell hreset
    rw [hcell, h₁.zero cell hreset]
  · intro cell hreset
    rw [hcell, h₁.same cell hreset]
  · rw [hrest.numRoPages, hpages, h₁.numRoPages]
  · rw [hrest.prediction, hbuffers, h₁.prediction]
  · rw [hrest.isVer, hver, h₁.isVer]

/-! ## Two invocations -/

def MainCall.wid : MainCall → ℤ
  | beginIter wid _ _ _ => wid
  | busyWait wid => wid
  | endIter wid _ _ => wid

/-- The cells that calls of the workers read. -/
def Config.readCells (c : Config) : Set Tally :=
  {cell | ∃ call : MainCall, c.IsWorker call.wid ∧ cell ∈ call.reads c}

/-- After the two states, an invocation starts from the same values of all that
    the calls of the workers read, and all sequences of calls do the same:
    they charge the same, store the same, and make the same rounds. -/
structure Independent (c : Config) (st st' : State) : Prop where
  tally : ∀ cell ∈ c.readCells,
    (beginInvocation c st').tally cell = (beginInvocation c st).tally cell
  numRoPages : (beginInvocation c st').numRoPages = (beginInvocation c st).numRoPages
  prediction : (beginInvocation c st').prediction = (beginInvocation c st).prediction
  runs : ∀ (fuel : ℕ) (calls : List MainCall), (∀ call ∈ calls, c.IsWorker call.wid) →
    Option.Rel (SameSince (beginInvocation c st).trace (beginInvocation c st').trace)
      (runMain c fuel calls (beginInvocation c st)) (runMain c fuel calls (beginInvocation c st'))

theorem cleared_eq_iff (n m : ℕ) (p p' : Prediction) : p'.cleared n m = p.cleared n m ↔
    p'.numLoopInvariantLoads = p.numLoopInvariantLoads ∧ p'.numContexts = p.numContexts ∧
    ∀ i j, ¬ (i < n ∧ j < m) → p'.loopInvariantBuffer i j = p.loopInvariantBuffer i j ∧
      p'.linearPredictors i j = p.linearPredictors i j := by
  have hentries (buf buf' : ℕ → ℕ → ℤ) :
      mapEntries (fun _ _ _ => 0) n m buf' = mapEntries (fun _ _ _ => 0) n m buf ↔
        ∀ i j, ¬ (i < n ∧ j < m) → buf' i j = buf i j := by
    constructor
    · intro h i j hij
      have := congrFun (congrFun h i) j
      rwa [mapEntries, mapEntries, if_neg hij, if_neg hij] at this
    · intro h
      funext i j
      by_cases hij : i < n ∧ j < m
      · rw [mapEntries, mapEntries, if_pos hij, if_pos hij]
      · rw [mapEntries, mapEntries, if_neg hij, if_neg hij, h i j hij]
  simp only [Prediction.cleared, Prediction.mk.injEq, hentries, ← forall_and]

/-- **When two invocations do the same**: when the states agree on the cells
    that are read and not cleared, on `num_ro_pages`, and on the predictions
    outside the rectangle that is cleared. -/
theorem independent_iff (c : Config) {st st' : State} (hver : st'.isVer = st.isVer) :
    Independent c st st' ↔
      (∀ cell ∈ c.readCells, cell ∉ c.reset → st'.tally cell = st.tally cell) ∧
      st'.numRoPages = st.numRoPages ∧
      st'.prediction.numLoopInvariantLoads = st.prediction.numLoopInvariantLoads ∧
      st'.prediction.numContexts = st.prediction.numContexts ∧
      ∀ i j, ¬ (i < c.maxLoads ∧ j < c.maxContexts) →
        st'.prediction.loopInvariantBuffer i j = st.prediction.loopInvariantBuffer i j ∧
        st'.prediction.linearPredictors i j = st.prediction.linearPredictors i j := by
  have h := beginInvocation_begins c st
  have h' := beginInvocation_begins c st'
  rw [← cleared_eq_iff]
  constructor
  · intro hind
    refine ⟨?_, ?_, ?_⟩
    · intro cell hread hreset
      have := hind.tally cell hread
      rwa [h.same cell hreset, h'.same cell hreset] at this
    · have := hind.numRoPages
      rwa [h.numRoPages, h'.numRoPages] at this
    · have := hind.prediction
      rwa [h.prediction, h'.prediction] at this
  · rintro ⟨htally, hpages, hpred⟩
    have hagree : Agree c.readCells (beginInvocation c st).trace (beginInvocation c st').trace
        (beginInvocation c st) (beginInvocation c st') := by
      refine ⟨?_, ?_, ?_, ?_, [], rfl, rfl⟩
      · intro cell hread
        by_cases hreset : cell ∈ c.reset
        · rw [h.zero cell hreset, h'.zero cell hreset]
        · rw [h.same cell hreset, h'.same cell hreset, htally cell hread hreset]
      · rw [h.numRoPages, h'.numRoPages, hpages]
      · rw [h.prediction, h'.prediction, hpred]
      · rw [h.isVer, h'.isVer, hver]
    refine ⟨hagree.tally, hagree.numRoPages, hagree.prediction, ?_⟩
    intro fuel calls hcalls
    refine agree_sameSince (runMain_agree hagree ?_)
    intro call hmem cell hcell
    exact ⟨call, hcalls call hmem, hcell⟩

/-- Packets that an earlier invocation has left in a queue between two workers
    make no difference. -/
theorem independent_iff_queued : Independent .default (.init .default)
    { State.init .default with
      tally := Function.update (State.init .default).tally (.ucvf 0 1) 16 } := by
  refine (independent_iff .default (by rfl)).2 ⟨?_, rfl, rfl, rfl, fun _ _ _ => ⟨rfl, rfl⟩⟩
  intro cell _ hreset
  refine Function.update_of_ne ?_ _ _
  rintro rfl
  exact hreset (Or.inl ⟨0, 1, by decide, by decide, rfl⟩)

/-- An invocation that has used up the read-only pages leaves none for the next. -/
theorem not_independent : ¬ Independent .default (.init .default)
    { State.init .default with numRoPages := 0 } := by
  rw [independent_iff .default (by rfl)]
  rintro ⟨-, hpages, -⟩
  exact absurd hpages (by decide)

theorem mem_reset_ucvf (row col : ℤ) :
    .ucvf row col ∈ c.reset ↔ 0 ≤ row ∧ row < col ∧ col < c.width := by
  constructor
  · rintro (⟨i, j, hij, hj, heq⟩ | ⟨i, -, j, -, heq⟩ | ⟨j, -, heq⟩ | ⟨j, -, heq⟩)
    · obtain ⟨rfl, rfl⟩ := Tally.ucvf.inj heq
      omega
    · cases heq
    · cases heq
    · cases heq
  · rintro ⟨hrow, hlt, hcol⟩
    refine Or.inl ⟨row.toNat, col.toNat, by omega, by omega, ?_⟩
    rw [Int.toNat_of_nonneg hrow, Int.toNat_of_nonneg (by omega)]

/-- The cells that are read and not cleared: those of `ucvf_queues` on and below
    the diagonal, and the rows that the textual macro adds below the table. -/
theorem mem_readCells_iff (hA : 0 < c.numAuxWorkers) (cell : Tally) :
    cell ∈ c.readCells ∧ cell ∉ c.reset ↔ ∃ row col : ℤ, cell = .ucvf row col ∧
      -c.numAuxWorkers ≤ row ∧ row < c.width ∧ 0 ≤ col ∧ col < c.width ∧
      (row < 0 ∨ col ≤ row) := by
  have haux := c.aux_lt
  have hwidth : c.numWorkers = c.width := c.numWorkers_eq
  have hsum : c.width + c.numAuxWorkers = 12 := by
    unfold Config.width
    omega
  constructor
  · rintro ⟨⟨call, ⟨hw, hW⟩, hread⟩, hreset⟩
    rw [hwidth] at hW
    -- a cell of `ucvf_queues` that is not cleared
    have hucvf {res : ℕ} (hres : res < 12) {col : ℤ} (hcol : 0 ≤ col ∧ col < c.width)
        (hcell : cell = .ucvf (c.row res) col) : ∃ row col : ℤ, cell = .ucvf row col ∧
          -c.numAuxWorkers ≤ row ∧ row < c.width ∧ 0 ≤ col ∧ col < c.width ∧
          (row < 0 ∨ col ≤ row) := by
      rw [hcell, mem_reset_ucvf] at hreset
      refine ⟨c.row res, col, hcell, ?_, ?_, hcol.1, hcol.2, by omega⟩ <;>
        · unfold Config.row
          omega
    cases call with
    | beginIter wid iter myStage isMyIter =>
      obtain ⟨w, rfl⟩ := Int.eq_ofNat_of_zero_le hw
      rcases hread with ⟨i, -, hcell⟩ | ⟨-, -, k, hk, rfl⟩
      · exact hucvf (Nat.mod_lt (w + i) (by decide)) ⟨hw, hW⟩ hcell
      · exact absurd (Or.inr (Or.inl ⟨w, Int.ofNat_lt.1 hW, k, hk, rfl⟩)) hreset
    | busyWait wid =>
      obtain ⟨w, rfl⟩ := Int.eq_ofNat_of_zero_le hw
      exact absurd (Or.inr (Or.inr (Or.inr ⟨w, Int.ofNat_lt.1 hW, hread⟩))) hreset
    | endIter wid myStage isMyIter =>
      obtain ⟨w, rfl⟩ := Int.eq_ofNat_of_zero_le hw
      have hw12 : w < 12 := by
        have := Int.ofNat_lt.1 hW
        omega
      obtain ⟨-, rfl | ⟨i, -, hi, ⟨-, idx, hidx, rfl⟩ | ⟨-, idx, hidx, hcell⟩⟩⟩ := hread
      · exact absurd (Or.inr (Or.inl ⟨w, Int.ofNat_lt.1 hW, 0, hA, rfl⟩)) hreset
      · exact absurd (Or.inr (Or.inr (Or.inl ⟨idx, by omega, rfl⟩))) hreset
      · rw [c.forwardSource_eq hw12 (hi.trans c.heaps_lt)] at hcell
        exact hucvf (Nat.mod_lt _ (by decide)) ⟨by omega, by omega⟩ hcell
  · rintro ⟨row, col, rfl, hlo, hhi, hcol, hcolW, hbelow⟩
    refine ⟨⟨.beginIter col 0 12 0, ⟨hcol, by rwa [hwidth]⟩, Or.inl ?_⟩, ?_⟩
    · -- one of twelve sources in a row
      obtain ⟨w, rfl⟩ := Int.eq_ofNat_of_zero_le hcol
      obtain ⟨res, hres⟩ := Int.eq_ofNat_of_zero_le (show 0 ≤ row + c.numAuxWorkers by omega)
      refine ⟨(res + 12 - w) % 12, by simp; omega, ?_⟩
      have hrow : c.modNumWorkers (w + ((res + 12 - w) % 12 : ℕ)) =
          c.row ((w + (res + 12 - w) % 12) % 12) := rfl
      rw [hrow, Config.row]
      congr 1
      omega
    · rw [mem_reset_ucvf]
      omega

end SpecPriv.Simple
