/-
  The prediction buffers.

  The two updates change every entry of a rectangle by a function of its place;
  the two shadow updates count the entries of a rectangle that are not zero,
  and pay for each of them by its value.

  `updateLoopInvariants_ledger`, …: what the loops leave in the buffers, and
  what they cost, in closed form.  `Prediction.updated` and
  `Prediction.counted` say it for the blocks of `begin_iter` and `end_iter`.
-/
import SpecPriv.Lib.Meter
import SpecPriv.Simple.Ledger

namespace SpecPriv.Simple

open Loop Finset

variable {c : Config} {st : State}

/-- A loop that only pays. -/
theorem pay_forLoop {body : ℕ → State → State} {start stop step k : ℕ}
    (h : ∀ i st, (body i st).ledger = st.ledger.pay k) (st : State) :
    (forLoop start stop step body st).ledger =
      st.ledger.pay (rounds start stop step * k : ℕ) := by
  refine forN_induct (fun j (st' : State) => st'.ledger = st.ledger.pay (j * k : ℕ)) ?_ ?_
  · simp [Ledger.pay]
  · intro j _ st' hst'
    rw [h, hst', Ledger.pay_pay, Nat.succ_mul]
    push_cast
    rfl

/-! ## Updating the entries of a rectangle -/

/-- Change the entries of the first `n` rows and the first `m` columns. -/
def mapEntries (f : ℕ → ℕ → ℤ → ℤ) (n m : ℕ) (buf : ℕ → ℕ → ℤ) : ℕ → ℕ → ℤ :=
  fun i j => if i < n ∧ j < m then f i j (buf i j) else buf i j

/-- Change the entries of the first `m` columns of the row `r`. -/
def mapRow (f : ℕ → ℕ → ℤ → ℤ) (r m : ℕ) (buf : ℕ → ℕ → ℤ) : ℕ → ℕ → ℤ :=
  fun i j => if i = r ∧ j < m then f i j (buf i j) else buf i j

variable {f : ℕ → ℕ → ℤ → ℤ}

theorem setEntry_apply (buf : ℕ → ℕ → ℤ) (r s i j : ℕ) (v : ℤ) :
    setEntry buf r s v i j = if i = r ∧ j = s then v else buf i j := by
  unfold setEntry
  by_cases hi : i = r
  · subst hi
    rw [Function.update_self, Function.update_apply]
    simp
  · rw [Function.update_of_ne hi]
    simp [hi]

theorem setEntry_mapRow (r m : ℕ) (buf : ℕ → ℕ → ℤ) :
    setEntry (mapRow f r m buf) r m (f r m (mapRow f r m buf r m)) = mapRow f r (m + 1) buf := by
  funext i j
  have hself : mapRow f r m buf r m = buf r m := by simp [mapRow]
  rw [setEntry_apply, hself]
  by_cases hij : i = r ∧ j = m
  · obtain ⟨rfl, rfl⟩ := hij
    simp [mapRow]
  · rw [if_neg hij]
    have hiff : i = r ∧ j < m + 1 ↔ i = r ∧ j < m := by omega
    simp only [mapRow, hiff]

theorem mapRow_mapEntries (r m : ℕ) (buf : ℕ → ℕ → ℤ) :
    mapRow f r m (mapEntries f r m buf) = mapEntries f (r + 1) m buf := by
  funext i j
  by_cases hi : i = r
  · subst hi
    simp [mapRow, mapEntries]
  · have hiff : i < r + 1 ∧ j < m ↔ i < r ∧ j < m := by omega
    simp only [mapRow, mapEntries, hi, hiff, false_and, if_false]

theorem mapRow_zero (r : ℕ) (buf : ℕ → ℕ → ℤ) : mapRow f r 0 buf = buf := by
  funext i j
  simp [mapRow]

theorem mapEntries_zero (m : ℕ) (buf : ℕ → ℕ → ℤ) : mapEntries f 0 m buf = buf := by
  funext i j
  simp [mapEntries]

/-- The loops over a rectangle, on a buffer alone. -/
theorem forLoop_setEntry (n m : ℕ) (buf : ℕ → ℕ → ℤ) :
    forLoop 0 n 1 (fun i => forLoop 0 m 1 fun j buf => setEntry buf i j (f i j (buf i j))) buf =
      mapEntries f n m buf := by
  have hrow (i : ℕ) (buf : ℕ → ℕ → ℤ) :
      forLoop 0 m 1 (fun j buf => setEntry buf i j (f i j (buf i j))) buf = mapRow f i m buf := by
    rw [forLoop, rounds_one, Nat.sub_zero]
    refine forN_induct (fun j buf' => buf' = mapRow f i j buf) (mapRow_zero i buf).symm ?_
    rintro j - buf' rfl
    rw [Nat.zero_add, Nat.one_mul, setEntry_mapRow]
  rw [forLoop, rounds_one, Nat.sub_zero]
  refine forN_induct (fun i buf' => buf' = mapEntries f i m buf) (mapEntries_zero m buf).symm ?_
  rintro i - buf' rfl
  rw [Nat.zero_add, Nat.one_mul, hrow, mapRow_mapEntries]

/-- The two buffers. -/
inductive Buffer
  | loopInvariantBuffer
  | linearPredictors

def Prediction.buffer (p : Prediction) : Buffer → ℕ → ℕ → ℤ
  | .loopInvariantBuffer => p.loopInvariantBuffer
  | .linearPredictors => p.linearPredictors

def Prediction.setBuffer (p : Prediction) (buf : ℕ → ℕ → ℤ) : Buffer → Prediction
  | .loopInvariantBuffer => { p with loopInvariantBuffer := buf }
  | .linearPredictors => { p with linearPredictors := buf }

/-- The loops of the two updates: each round pays, and changes one entry. -/
theorem update_ledger (b : Buffer) {body : ℕ → ℕ → State → State}
    (hbody : ∀ i j st, (body i j st).ledger =
      { st.ledger.pay 4 with
        prediction := st.prediction.setBuffer
          (setEntry (st.prediction.buffer b) i j (f i j (st.prediction.buffer b i j))) b })
    (n m : ℕ) (st : State) :
    (forLoop 0 n 1 (fun i => forLoop 0 m 1 (body i)) st).ledger =
      { st.ledger.pay (4 * (n * m) : ℕ) with
        prediction := st.prediction.setBuffer (mapEntries f n m (st.prediction.buffer b)) b } := by
  have hget (buf : ℕ → ℕ → ℤ) (p : Prediction) : (p.setBuffer buf b).buffer b = buf := by
    cases b <;> rfl
  have hset (buf buf' : ℕ → ℕ → ℤ) (p : Prediction) :
      (p.setBuffer buf b).setBuffer buf' b = p.setBuffer buf' b := by
    cases b <;> rfl
  have hsame (p : Prediction) : p.setBuffer (p.buffer b) b = p := by
    cases b <;> rfl
  -- what was paid and the buffer, at any point of the loops
  let R (st' : State) (r : ℕ × (ℕ → ℕ → ℤ)) : Prop := st'.ledger =
    { st.ledger.pay (r.1 : ℕ) with prediction := st.prediction.setBuffer r.2 b }
  let step (i j : ℕ) (r : ℕ × (ℕ → ℕ → ℤ)) : ℕ × (ℕ → ℕ → ℤ) :=
    (r.1 + 4, setEntry r.2 i j (f i j (r.2 i j)))
  have hround (i j : ℕ) (st' : State) (r : ℕ × (ℕ → ℕ → ℤ)) (hr : R st' r) :
      R (body i j st') (step i j r) := by
    have hp : st'.prediction = st.prediction.setBuffer r.2 b := congrArg Ledger.prediction hr
    have hl : st'.ledger = _ := hr
    simp only [R, step]
    rw [hbody, hp, hget, hset, hl]
    simp [Ledger.pay, add_assoc]
  have hstart : R st (0, st.prediction.buffer b) := by
    simp only [R, hsame]
    simp [Ledger.pay]
    rfl
  have hloops : R (forLoop 0 n 1 (fun i => forLoop 0 m 1 (body i)) st)
      (forLoop 0 n 1 (fun i => forLoop 0 m 1 (step i)) (0, st.prediction.buffer b)) :=
    forLoop_related (fun i _ _ _ _ h => forLoop_related (fun j _ _ _ _ h => hround i j _ _ h) h)
      hstart
  have hpaid : Meter.Adds (fun _ => True) Prod.fst (n * (m * 4))
      (forLoop 0 n 1 fun i => forLoop 0 m 1 (step i)) :=
    Meter.Adds.forLoop_const 0 n fun _ _ _ => Meter.Adds.forLoop_const 0 m fun _ _ _ _ _ =>
      ⟨trivial, rfl⟩
  have hbuf (r : ℕ × (ℕ → ℕ → ℤ)) :
      (forLoop 0 n 1 (fun i => forLoop 0 m 1 (step i)) r).2 = mapEntries f n m r.2 := by
    rw [← forLoop_setEntry]
    exact forLoop_map Prod.snd (fun i r => forLoop_map Prod.snd (fun _ _ => rfl) 0 m 1 r) 0 n 1 r
  have hcount : 0 + n * (m * 4) = 4 * (n * m) := by ring
  simp only [R] at hloops
  rw [(hpaid _ trivial).2, hbuf, hcount] at hloops
  exact hloops

theorem setLoopInvariantBuffer_ledger (i j : ℕ) (v : ℤ) (st : State) :
    (st.setLoopInvariantBuffer i j v).ledger = { st.ledger with
      prediction := (st.setLoopInvariantBuffer i j v).prediction } := rfl

theorem setLinearPredictors_ledger (i j : ℕ) (v : ℤ) (st : State) :
    (st.setLinearPredictors i j v).ledger = { st.ledger with
      prediction := (st.setLinearPredictors i j v).prediction } := rfl

theorem updateLoopInvariants_ledger (nl nc : ℤ) (st : State) :
    (updateLoopInvariants nl nc st).ledger =
      { st.ledger.pay (4 * (nl.toNat * nc.toNat) : ℕ) with
        prediction := { st.prediction with
          loopInvariantBuffer := mapEntries (fun i _ v => Int.tmod (v + i) 8) nl.toNat nc.toNat
            st.prediction.loopInvariantBuffer } } :=
  update_ledger .loopInvariantBuffer (fun i j st => by
    rw [setLoopInvariantBuffer_ledger, charge_ledger]
    rfl) _ _ st

theorem updateLinearPredictedValues_ledger (nl nc : ℤ) (st : State) :
    (updateLinearPredictedValues nl nc st).ledger =
      { st.ledger.pay (4 * (nl.toNat * nc.toNat) : ℕ) with
        prediction := { st.prediction with
          linearPredictors := mapEntries (fun _ j v => Int.tmod (v + j) 8) nl.toNat nc.toNat
            st.prediction.linearPredictors } } :=
  update_ledger .linearPredictors (fun i j st => by
    rw [setLinearPredictors_ledger, charge_ledger]
    rfl) _ _ st

/-! ## Counting the entries of a rectangle -/

/-- The number of the entries that are not zero. -/
def nonzeroEntries (buf : ℕ → ℕ → ℤ) (n m : ℕ) : ℕ :=
  ∑ i ∈ range n, ∑ j ∈ range m, if buf i j ≠ 0 then 1 else 0

/-- What the count costs. -/
def countCost (buf : ℕ → ℕ → ℤ) (n m : ℕ) : ℕ :=
  ∑ i ∈ range n, ∑ j ∈ range m, (4 + 13 * (buf i j).toNat)

/-- The count grew by `n`, and `k` was paid. -/
def Counts (n k : ℕ) (r r' : ℤ × State) : Prop :=
  r'.1 = r.1 + n ∧ r'.2.ledger = r.2.ledger.pay k

/-- A loop each of whose rounds counts. -/
theorem counts_forLoop {body : ℕ → ℤ × State → ℤ × State} {n k : ℕ → ℕ}
    (h : ∀ i r, Counts (n i) (k i) r (body i r)) (stop : ℕ) (r : ℤ × State) :
    Counts (∑ i ∈ range stop, n i) (∑ i ∈ range stop, k i) r (forLoop 0 stop 1 body r) := by
  rw [forLoop, rounds_one, Nat.sub_zero]
  refine forN_induct (fun j (r' : ℤ × State) =>
    Counts (∑ i ∈ range j, n i) (∑ i ∈ range j, k i) r r') ?_ ?_
  · exact ⟨by simp, by simp [Ledger.pay]⟩
  · rintro j _ r' ⟨h1, h2⟩
    obtain ⟨h3, h4⟩ := h j r'
    rw [Nat.zero_add, Nat.one_mul, sum_range_succ, sum_range_succ]
    constructor
    · rw [h3, h1]
      push_cast
      ring
    · rw [h4, h2, Ledger.pay_pay]
      push_cast
      rfl

theorem countEntries_counts (buf : ℕ → ℕ → ℤ) (nl nc : ℤ) (st : State) :
    Counts (nonzeroEntries buf nl.toNat nc.toNat) (countCost buf nl.toNat nc.toNat) (0, st)
      (countEntries buf nl nc st) := by
  refine counts_forLoop ?_ _ (0, st)
  intro i r
  refine counts_forLoop ?_ _ r
  intro j r
  constructor
  · split_ifs <;> simp
  · rw [pay_forLoop (fun _ st => charge_ledger 13), charge_ledger, Ledger.pay_pay, rounds_one,
      Nat.sub_zero]
    push_cast
    rw [mul_comm]

/-! ## The blocks of `begin_iter` and `end_iter` -/

namespace Prediction

/-- The predictions after the two updates. -/
def updated (p : Prediction) : Prediction where
  numLoopInvariantLoads := p.numLoopInvariantLoads
  numContexts := p.numContexts
  loopInvariantBuffer := mapEntries (fun i _ v => Int.tmod (v + i) 8) p.numLoopInvariantLoads.toNat
    p.numContexts.toNat p.loopInvariantBuffer
  linearPredictors := mapEntries (fun _ j v => Int.tmod (v + j) 8) p.numLoopInvariantLoads.toNat
    p.numContexts.toNat p.linearPredictors

/-- What the two updates cost. -/
def updateCost (p : Prediction) : ℕ := 8 * (p.numLoopInvariantLoads.toNat * p.numContexts.toNat)

/-- A count that is out of range is replaced by the maximum. -/
def clamp (max r : ℤ) : ℤ := if r > max ∨ r ≤ 0 then max else r

/-- The number of loads after the shadow update. -/
def countedLoads (c : Config) (p : Prediction) : ℤ :=
  clamp c.maxLoads
    (nonzeroEntries p.loopInvariantBuffer p.numLoopInvariantLoads.toNat p.numContexts.toNat)

/-- The number of contexts after the shadow update, which uses the new number of loads. -/
def countedContexts (c : Config) (p : Prediction) : ℤ :=
  clamp c.maxContexts
    (nonzeroEntries p.linearPredictors (p.countedLoads c).toNat p.numContexts.toNat)

/-- The predictions after the two shadow updates. -/
def counted (c : Config) (p : Prediction) : Prediction :=
  { p with numLoopInvariantLoads := p.countedLoads c, numContexts := p.countedContexts c }

/-- What the two shadow updates cost. -/
def countingCost (c : Config) (p : Prediction) : ℕ :=
  countCost p.loopInvariantBuffer p.numLoopInvariantLoads.toNat p.numContexts.toNat +
    countCost p.linearPredictors (p.countedLoads c).toNat p.numContexts.toNat

end Prediction

theorem queueProduce_queue_ledger (row col : ℤ) (st : State) :
    (queueProduce (.queue row col) st).ledger = st.ledger.pay 6 := by
  rw [queueProduce, store_queue_ledger, charge_ledger]
  rfl

theorem updatePredictions_ledger (wid : ℤ) (st : State) :
    (updatePredictions c wid st).ledger =
      { st.ledger.pay (st.prediction.updateCost + 6 * c.numAuxWorkers : ℕ) with
        prediction := st.prediction.updated } := by
  have h1 := updateLoopInvariants_ledger st.prediction.numLoopInvariantLoads
    st.prediction.numContexts st
  unfold updatePredictions
  generalize updateLoopInvariants st.prediction.numLoopInvariantLoads
    st.prediction.numContexts st = st₁ at h1 ⊢
  have hp := congrArg Ledger.prediction h1
  have h2 := updateLinearPredictedValues_ledger st₁.prediction.numLoopInvariantLoads
    st₁.prediction.numContexts st₁
  rw [pay_forLoop (fun i st => queueProduce_queue_ledger wid i st), h2, h1]
  simp only [State.ledger] at hp
  simp [Ledger.pay, hp, Prediction.updated, Prediction.updateCost]
  ring

theorem updateShadowLoopInvariants_ledger (nl nc : ℤ) (st : State) :
    (updateShadowLoopInvariants c nl nc st).1 = Prediction.clamp c.maxLoads
      (nonzeroEntries st.prediction.loopInvariantBuffer nl.toNat nc.toNat) ∧
    (updateShadowLoopInvariants c nl nc st).2.ledger =
      st.ledger.pay (countCost st.prediction.loopInvariantBuffer nl.toNat nc.toNat) := by
  obtain ⟨h1, h2⟩ := countEntries_counts st.prediction.loopInvariantBuffer nl nc st
  rw [zero_add] at h1
  simp only [updateShadowLoopInvariants, Prediction.clamp, h1]
  exact ⟨trivial, h2⟩

theorem updateShadowLinearPredictedValues_ledger (nl nc : ℤ) (st : State) :
    (updateShadowLinearPredictedValues c nl nc st).1 = Prediction.clamp c.maxContexts
      (nonzeroEntries st.prediction.linearPredictors nl.toNat nc.toNat) ∧
    (updateShadowLinearPredictedValues c nl nc st).2.ledger =
      st.ledger.pay (countCost st.prediction.linearPredictors nl.toNat nc.toNat) := by
  obtain ⟨h1, h2⟩ := countEntries_counts st.prediction.linearPredictors nl nc st
  rw [zero_add] at h1
  simp only [updateShadowLinearPredictedValues, Prediction.clamp, h1]
  exact ⟨trivial, h2⟩

/-- The block of `end_iter` that counts. -/
theorem counted_ledger (st : State) :
    let r := updateShadowLoopInvariants c st.prediction.numLoopInvariantLoads
      st.prediction.numContexts st
    let st₁ := { r.2 with prediction := { r.2.prediction with numLoopInvariantLoads := r.1 } }
    let r := updateShadowLinearPredictedValues c st₁.prediction.numLoopInvariantLoads
      st₁.prediction.numContexts st₁
    ({ r.2 with prediction := { r.2.prediction with numContexts := r.1 } } : State).ledger =
      { st.ledger.pay (st.prediction.countingCost c : ℕ) with
        prediction := st.prediction.counted c } := by
  intro r st₁ r'
  obtain ⟨h1, h2⟩ := updateShadowLoopInvariants_ledger (c := c)
    st.prediction.numLoopInvariantLoads st.prediction.numContexts st
  have hp : r.2.prediction = st.prediction := congrArg Ledger.prediction h2
  have hst₁ : st₁.ledger = { r.2.ledger with prediction := st₁.prediction } := rfl
  have hp₁ : st₁.prediction =
      { st.prediction with numLoopInvariantLoads := st.prediction.countedLoads c } := by
    change { r.2.prediction with numLoopInvariantLoads := r.1 } = _
    rw [hp, show r.1 = st.prediction.countedLoads c from h1]
  obtain ⟨h3, h4⟩ := updateShadowLinearPredictedValues_ledger (c := c)
    st₁.prediction.numLoopInvariantLoads st₁.prediction.numContexts st₁
  have hp' : r'.2.prediction = st₁.prediction := congrArg Ledger.prediction h4
  have hfinal : ({ r'.2 with prediction := { r'.2.prediction with numContexts := r'.1 } } :
      State).ledger = { r'.2.ledger with
        prediction := { r'.2.prediction with numContexts := r'.1 } } := rfl
  rw [hfinal, hp', h4, hst₁, h2, h3, hp₁]
  simp [Ledger.pay, Prediction.counted, Prediction.countedContexts, Prediction.countingCost,
    add_assoc]

end SpecPriv.Simple
