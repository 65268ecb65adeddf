/-
  The range of the predictions, over whole runs.

  A call changes the cells of a rectangle whose sides are the sizes in use, or
  counts its non-zero cells and makes the count the next size.
  `Prediction.InRange` is what all calls keep: sizes that the arrays have, and
  cells of three bits, the first row and the first column being zero.

  The functions with a question mark are those of the program with the bounds
  of the arrays checked at every access.  `predictions_inRange`: from the
  cleared buffers, no calls in any order leave the range or fail a check.
-/
import SpecPriv.Simple.Independence

namespace SpecPriv.Simple

open Loop

/-! ## Checked accesses -/

/-- The loops of the functions of `invariant.c`, each round of which uses the
    entry `[i][j]` of arrays of `MAX_LOADS` rows and `MAX_CONTEXTS` columns. -/
def rectangle? {σ : Type} (c : Config) (numLoopInvariantLoads numContexts : ℤ)
    (body : ℕ → ℕ → σ → σ) : σ → Option σ :=
  forLoop? 0 numLoopInvariantLoads.toNat 1 fun i =>
    forLoop? 0 numContexts.toNat 1 fun j s =>
      if i < c.maxLoads ∧ j < c.maxContexts then some (body i j s) else none

def initBuffers? (c : Config) (numLoopInvariantLoads numContexts : ℤ) : State → Option State :=
  rectangle? c numLoopInvariantLoads numContexts fun i j st =>
    let st := st.charge 400
    let st := st.setLoopInvariantBuffer i j 0
    st.setLinearPredictors i j 0

def updateLoopInvariants? (c : Config) (numLoopInvariantLoads numContexts : ℤ) :
    State → Option State :=
  rectangle? c numLoopInvariantLoads numContexts fun i j st =>
    let st := st.charge 4
    st.setLoopInvariantBuffer i j (Int.tmod (st.prediction.loopInvariantBuffer i j + i) 8)

def updateLinearPredictedValues? (c : Config) (numLoopInvariantLoads numContexts : ℤ) :
    State → Option State :=
  rectangle? c numLoopInvariantLoads numContexts fun i j st =>
    let st := st.charge 4
    st.setLinearPredictors i j (Int.tmod (st.prediction.linearPredictors i j + j) 8)

def countEntries? (c : Config) (buf : ℕ → ℕ → ℤ) (numLoopInvariantLoads numContexts : ℤ)
    (st : State) : Option (ℤ × State) :=
  rectangle? c numLoopInvariantLoads numContexts (fun i j r =>
    let st := r.2.charge 4
    let st := forLoop 0 (buf i j).toNat 1 (fun _ st => st.charge 13) st
    (if buf i j ≠ 0 then r.1 + 1 else r.1, st)) (0, st)

def updateShadowLoopInvariants? (c : Config) (numLoopInvariantLoads numContexts : ℤ)
    (st : State) : Option (ℤ × State) := do
  let r ← countEntries? c st.prediction.loopInvariantBuffer numLoopInvariantLoads numContexts st
  some (if r.1 > c.maxLoads ∨ r.1 ≤ 0 then c.maxLoads else r.1, r.2)

def updateShadowLinearPredictedValues? (c : Config) (numLoopInvariantLoads numContexts : ℤ)
    (st : State) : Option (ℤ × State) := do
  let r ← countEntries? c st.prediction.linearPredictors numLoopInvariantLoads numContexts st
  some (if r.1 > c.maxContexts ∨ r.1 ≤ 0 then c.maxContexts else r.1, r.2)

/-- The checks succeed when the rectangle lies in the arrays. -/
theorem rectangle?_eq_some {σ : Type} {c : Config} {nl nc : ℤ} (hl : nl ≤ c.maxLoads)
    (hc : nc ≤ c.maxContexts) (body : ℕ → ℕ → σ → σ) (s : σ) : rectangle? c nl nc body s =
      some (forLoop 0 nl.toNat 1 (fun i => forLoop 0 nc.toNat 1 (body i)) s) := by
  refine forLoop?_eq_some ?_ s
  intro i _ hi s
  refine forLoop?_eq_some ?_ s
  intro j _ hj s
  rw [if_pos (by omega)]

/-! ## Calls -/

/-- The functions that `begin_iter` and `end_iter` call with the sizes in use.
    The results of the last two become sizes. -/
inductive PredictionCall
  | updateLoopInvariants
  | updateLinearPredictedValues
  | updateShadowLoopInvariants
  | updateShadowLinearPredictedValues

namespace PredictionCall

def exec (c : Config) (st : State) (call : PredictionCall) : State :=
  let numLoopInvariantLoads := st.prediction.numLoopInvariantLoads
  let numContexts := st.prediction.numContexts
  match call with
  | updateLoopInvariants => Simple.updateLoopInvariants numLoopInvariantLoads numContexts st
  | updateLinearPredictedValues =>
    Simple.updateLinearPredictedValues numLoopInvariantLoads numContexts st
  | updateShadowLoopInvariants =>
    let r := Simple.updateShadowLoopInvariants c numLoopInvariantLoads numContexts st
    { r.2 with prediction := { r.2.prediction with numLoopInvariantLoads := r.1 } }
  | updateShadowLinearPredictedValues =>
    let r := Simple.updateShadowLinearPredictedValues c numLoopInvariantLoads numContexts st
    { r.2 with prediction := { r.2.prediction with numContexts := r.1 } }

/-- The call with its accesses checked. -/
def exec? (c : Config) (st : State) (call : PredictionCall) : Option State :=
  let numLoopInvariantLoads := st.prediction.numLoopInvariantLoads
  let numContexts := st.prediction.numContexts
  match call with
  | updateLoopInvariants => updateLoopInvariants? c numLoopInvariantLoads numContexts st
  | updateLinearPredictedValues =>
    updateLinearPredictedValues? c numLoopInvariantLoads numContexts st
  | updateShadowLoopInvariants => do
    let r ← updateShadowLoopInvariants? c numLoopInvariantLoads numContexts st
    some { r.2 with prediction := { r.2.prediction with numLoopInvariantLoads := r.1 } }
  | updateShadowLinearPredictedValues => do
    let r ← updateShadowLinearPredictedValues? c numLoopInvariantLoads numContexts st
    some { r.2 with prediction := { r.2.prediction with numContexts := r.1 } }

end PredictionCall

/-- Make the calls one after the other. -/
def runPredictions (c : Config) (calls : List PredictionCall) (st : State) : State :=
  calls.foldl (PredictionCall.exec c) st

def runPredictions? (c : Config) (calls : List PredictionCall) (st : State) : Option State :=
  calls.foldlM (PredictionCall.exec? c) st

/-- `begin_iter` makes two of the calls, and `end_iter` the other two. -/
theorem updatePredictions_eq_run (c : Config) (wid : ℤ) (st : State) :
    updatePredictions c wid st = forLoop 0 c.numAuxWorkers 1 (fun i => queueProduce (.queue wid i))
      (runPredictions c [.updateLoopInvariants, .updateLinearPredictedValues] st) := rfl

theorem updateShadowPredictions_eq_run (c : Config) (st : State) :
    updateShadowPredictions c st = runPredictions c
      [.updateShadowLoopInvariants, .updateShadowLinearPredictedValues] st := rfl

/-! ## The range -/

/-- The sizes are sizes of the arrays, and the cells of the arrays have three
    bits, but for the first row and the first column, which are zero. -/
structure Prediction.InRange (c : Config) (p : Prediction) : Prop where
  loads : 1 ≤ p.numLoopInvariantLoads ∧ p.numLoopInvariantLoads ≤ c.maxLoads
  contexts : 1 ≤ p.numContexts ∧ p.numContexts ≤ c.maxContexts
  cells : ∀ b, ∀ i < c.maxLoads, ∀ j < c.maxContexts, 0 ≤ p.buffer b i j ∧ p.buffer b i j ≤ 7
  firstRow : ∀ j < c.maxContexts, p.loopInvariantBuffer 0 j = 0
  firstColumn : ∀ i < c.maxLoads, p.linearPredictors i 0 = 0

namespace Prediction

variable {c : Config} {p : Prediction}

/-- A clamped count is a size. -/
theorem clamp_range {max r : ℤ} (hmax : 1 ≤ max) : 1 ≤ clamp max r ∧ clamp max r ≤ max := by
  unfold clamp
  split_ifs <;> omega

/-- An updated cell has three bits, whatever the update adds. -/
theorem tmod_range {v : ℤ} (hv : 0 ≤ v) (k : ℕ) :
    0 ≤ Int.tmod (v + k) 8 ∧ Int.tmod (v + k) 8 ≤ 7 := by
  rw [Int.tmod_eq_emod_of_nonneg (by omega)]
  omega

theorem cleared_inRange (hl : 0 < c.maxLoads) (hc : 0 < c.maxContexts)
    (hloads : p.numLoopInvariantLoads = c.maxLoads) (hcontexts : p.numContexts = c.maxContexts) :
    (p.cleared c.maxLoads c.maxContexts).InRange c where
  loads := by
    change 1 ≤ p.numLoopInvariantLoads ∧ p.numLoopInvariantLoads ≤ c.maxLoads
    omega
  contexts := by
    change 1 ≤ p.numContexts ∧ p.numContexts ≤ c.maxContexts
    omega
  cells b i hi j hj := by
    cases b <;> simp [buffer, cleared, mapEntries, hi, hj]
  firstRow j hj := by simp [cleared, mapEntries, hl, hj]
  firstColumn i hi := by simp [cleared, mapEntries, hc, hi]

namespace InRange

theorem updateLoopInvariants (h : p.InRange c) (n m : ℕ) :
    InRange c { p with
      loopInvariantBuffer :=
        mapEntries (fun i _ v => Int.tmod (v + i) 8) n m p.loopInvariantBuffer } where
  loads := h.loads
  contexts := h.contexts
  cells b i hi j hj := by
    cases b with
    | linearPredictors => exact h.cells .linearPredictors i hi j hj
    | loopInvariantBuffer =>
      have hcell := h.cells .loopInvariantBuffer i hi j hj
      simp only [buffer, mapEntries] at hcell ⊢
      split_ifs
      · exact tmod_range hcell.1 i
      · exact hcell
  firstRow j hj := by
    simp only [mapEntries, h.firstRow j hj]
    split_ifs <;> rfl
  firstColumn := h.firstColumn

theorem updateLinearPredictedValues (h : p.InRange c) (n m : ℕ) :
    InRange c { p with
      linearPredictors :=
        mapEntries (fun _ j v => Int.tmod (v + j) 8) n m p.linearPredictors } where
  loads := h.loads
  contexts := h.contexts
  cells b i hi j hj := by
    cases b with
    | loopInvariantBuffer => exact h.cells .loopInvariantBuffer i hi j hj
    | linearPredictors =>
      have hcell := h.cells .linearPredictors i hi j hj
      simp only [buffer, mapEntries] at hcell ⊢
      split_ifs
      · exact tmod_range hcell.1 j
      · exact hcell
  firstRow := h.firstRow
  firstColumn i hi := by
    simp only [mapEntries, h.firstColumn i hi]
    split_ifs <;> rfl

/-- A count of any cells becomes the number of loads. -/
theorem clampLoads (h : p.InRange c) (r : ℤ) :
    InRange c { p with numLoopInvariantLoads := clamp c.maxLoads r } where
  loads := clamp_range (h.loads.1.trans h.loads.2)
  contexts := h.contexts
  cells := h.cells
  firstRow := h.firstRow
  firstColumn := h.firstColumn

theorem clampContexts (h : p.InRange c) (r : ℤ) :
    InRange c { p with numContexts := clamp c.maxContexts r } where
  loads := h.loads
  contexts := clamp_range (h.contexts.1.trans h.contexts.2)
  cells := h.cells
  firstRow := h.firstRow
  firstColumn := h.firstColumn

end InRange

end Prediction

/-! ## Runs -/

variable {c : Config} {st : State}

/-- The sizes in use are what the bounds of the arrays require. -/
theorem PredictionCall.exec?_eq_some (h : st.prediction.InRange c) (call : PredictionCall) :
    call.exec? c st = some (call.exec c st) := by
  have hcheck {σ : Type} (body : ℕ → ℕ → σ → σ) (s : σ) :=
    rectangle?_eq_some h.loads.2 h.contexts.2 body s
  cases call with
  | updateLoopInvariants =>
    simp only [exec?, updateLoopInvariants?, hcheck]
    rfl
  | updateLinearPredictedValues =>
    simp only [exec?, updateLinearPredictedValues?, hcheck]
    rfl
  | updateShadowLoopInvariants =>
    simp only [exec?, updateShadowLoopInvariants?, countEntries?, hcheck]
    rfl
  | updateShadowLinearPredictedValues =>
    simp only [exec?, updateShadowLinearPredictedValues?, countEntries?, hcheck]
    rfl

/-- A call keeps the range. -/
theorem PredictionCall.exec_inRange (h : st.prediction.InRange c) (call : PredictionCall) :
    (call.exec c st).prediction.InRange c := by
  have hledger {st' : State} {l : Ledger} (hst' : st'.ledger = l) :
      st'.prediction = l.prediction := congrArg Ledger.prediction hst'
  cases call with
  | updateLoopInvariants =>
    unfold exec
    rw [hledger (updateLoopInvariants_ledger _ _ st)]
    exact h.updateLoopInvariants _ _
  | updateLinearPredictedValues =>
    unfold exec
    rw [hledger (updateLinearPredictedValues_ledger _ _ st)]
    exact h.updateLinearPredictedValues _ _
  | updateShadowLoopInvariants =>
    obtain ⟨hcount, hrest⟩ := updateShadowLoopInvariants_ledger (c := c)
      st.prediction.numLoopInvariantLoads st.prediction.numContexts st
    unfold exec
    dsimp only
    rw [hcount, hledger hrest]
    exact h.clampLoads _
  | updateShadowLinearPredictedValues =>
    obtain ⟨hcount, hrest⟩ := updateShadowLinearPredictedValues_ledger (c := c)
      st.prediction.numLoopInvariantLoads st.prediction.numContexts st
    unfold exec
    dsimp only
    rw [hcount, hledger hrest]
    exact h.clampContexts _

/-- Calls in any order keep the range, and fail no check. -/
theorem runPredictions_inRange (h : st.prediction.InRange c) (calls : List PredictionCall) :
    runPredictions? c calls st = some (runPredictions c calls st) ∧
      (runPredictions c calls st).prediction.InRange c := by
  induction calls generalizing st with
  | nil => exact ⟨rfl, h⟩
  | cons call calls ih =>
    obtain ⟨hrun, hrange⟩ := ih (call.exec_inRange h)
    refine ⟨?_, hrange⟩
    unfold runPredictions?
    rw [List.foldlM_cons, call.exec?_eq_some h]
    exact hrun

/-- **The predictions stay in range**: from the cleared buffers, whatever calls
    are made, in whatever order. -/
theorem predictions_inRange (hl : 0 < c.maxLoads) (hc : 0 < c.maxContexts)
    (st : State)
    (hloads : st.prediction.numLoopInvariantLoads = c.maxLoads)
    (hcontexts : st.prediction.numContexts = c.maxContexts) (calls : List PredictionCall) :
    let st₀ := initBuffers c.maxLoads c.maxContexts st
    initBuffers? c c.maxLoads c.maxContexts st = some st₀ ∧
      runPredictions? c calls st₀ = some (runPredictions c calls st₀) ∧
      (runPredictions c calls st₀).prediction.InRange c := by
  intro st₀
  have hcleared : st₀.prediction.InRange c := by
    rw [initBuffers_prediction]
    exact Prediction.cleared_inRange hl hc hloads hcontexts
  refine ⟨?_, runPredictions_inRange hcleared calls⟩
  unfold initBuffers?
  rw [rectangle?_eq_some le_rfl le_rfl]
  rfl

/-- The calls of an iteration, as the program starts. -/
theorem predictions_inRange_default :
    let calls := [PredictionCall.updateLoopInvariants, .updateLinearPredictedValues,
      .updateShadowLoopInvariants, .updateShadowLinearPredictedValues]
    let st₀ := initBuffers Config.default.maxLoads Config.default.maxContexts (.init .default)
    (runPredictions .default calls st₀).prediction.InRange .default := by
  intro calls st₀
  have h := predictions_inRange (c := .default) (by decide) (by decide)
    (.init .default) rfl rfl calls
  exact h.2.2

end SpecPriv.Simple
