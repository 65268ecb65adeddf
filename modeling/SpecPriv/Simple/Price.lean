/-
  The price of a run.

  A forwarded page sends more than a thousand packets, which is enough to fill
  every queue of a row they go to; and a queue that is drained is empty.  So
  between two calls of `main` every worker queue and every commit queue is full
  or empty.  `Shape` says which, and with it the charges of a whole iteration
  have a closed form, `Shape.price`.

  * `Fits`: the tallies are those of the shape.
  * `receive_fits`, `beginIter_fits`, `endIter_fits`, `iterCalls_fits`: what the
    calls do to the shape, and what they cost.
  * `main_total`: the charges of a run add up to `price c`.
  * `neverWraps_iff`: the counter never wraps iff that is below `2 ^ 31`.
-/
import SpecPriv.Simple.Calls
import SpecPriv.Simple.Drain

namespace SpecPriv.Simple

open Loop FirstFit Finset

/-- What a run has left in the tables between two calls: whether the commit
    queues are full, which worker queues are, by the remainder of the row, and
    the other data that charges depend on. -/
structure Shape where
  committed : Bool
  full : ℕ → ℕ → Bool
  roPages : ℕ
  prediction : Prediction

/-- The limit of the queues. -/
def limit : ℕ := 16

variable {c : Config} {sh : Shape} {st st' : State} {w iter fuel : ℕ}

/-- The tallies are those of the shape. -/
structure Fits (c : Config) (sh : Shape) (l : Ledger) : Prop where
  commit : Levels limit c.numAuxWorkers (fun _ => sh.committed) l.commit
  ucvf : ∀ res < 12, Levels limit c.width (sh.full res) (l.ucvf (c.row res))
  reverse : ∀ idx, l.reverse idx = 0
  numRoPages : l.numRoPages = sh.roPages
  prediction : l.prediction = sh.prediction
  isVer : ∀ idx, l.isVer idx = 0

theorem Fits.pay {l : Ledger} (h : Fits c sh l) (k : ℤ) : Fits c sh (l.pay k) :=
  ⟨h.commit, h.ucvf, h.reverse, h.numRoPages, h.prediction, h.isVer⟩

/-! ## Receiving -/

namespace Shape

/-- The queue from the row `res` to the worker is drained. -/
def drained (sh : Shape) (w res : ℕ) : Shape :=
  { sh with
    full := fun res' v => sh.full res' v && !(decide (res' = res) && v == w)
    roPages := sh.roPages - if sh.full res w then 4 else 0 }

/-- The rows a worker at this stage receives from. -/
def sources (w myStage : ℕ) : Finset ℕ := (range myStage).image fun i => (w + i) % 12

/-- The number of full queues a worker at this stage drains. -/
def fullSources (sh : Shape) (w myStage : ℕ) : ℕ := #{res ∈ sources w myStage | sh.full res w}

/-- The queues to the worker are drained. -/
def received (sh : Shape) (w myStage : ℕ) : Shape :=
  { sh with
    full := fun res v => sh.full res v && !(decide (res ∈ sources w myStage) && v == w)
    roPages := sh.roPages - 4 * sh.fullSources w myStage }

/-- What draining the queues costs: every queue a `DONE`, and a full one eight
    pairs of consumes, with four pages. -/
def receiveCost (sh : Shape) (w myStage : ℕ) : ℕ :=
  let pages := 4 * sh.fullSources w myStage
  let ro := min sh.roPages pages
  6 * myStage + 14 * pages + ro * (13 + 256 * 400) + (pages - ro) * 14348

theorem sources_succ (w i : ℕ) : sources w (i + 1) = insert ((w + i) % 12) (sources w i) := by
  rw [sources, range_add_one, image_insert]
  rfl

theorem received_full (sh : Shape) (w i res : ℕ) : (sh.received w i).full res w = true ↔
    sh.full res w = true ∧ res ∉ sources w i := by
  simp [received]

theorem fullSources_succ (sh : Shape) (w i : ℕ) : sh.fullSources w (i + 1) =
    sh.fullSources w i + if (sh.received w i).full ((w + i) % 12) w then 1 else 0 := by
  unfold fullSources
  rw [sources_succ, filter_insert]
  by_cases hmem : (w + i) % 12 ∈ sources w i
  · have hnot : ¬ (sh.received w i).full ((w + i) % 12) w := by
      intro h
      exact ((received_full ..).1 h).2 hmem
    rw [if_neg hnot, Nat.add_zero]
    split_ifs with hfull
    · rw [insert_eq_of_mem (mem_filter.2 ⟨hmem, hfull⟩)]
    · rfl
  · have hiff : (sh.received w i).full ((w + i) % 12) w ↔ sh.full ((w + i) % 12) w :=
      (received_full ..).trans (and_iff_left hmem)
    rw [if_congr hiff rfl rfl]
    split_ifs with hfull
    · have hnew : (w + i) % 12 ∉ {res ∈ sources w i | sh.full res w} := by
        intro h
        exact hmem (mem_filter.1 h).1
      rw [card_insert_of_notMem hnew]
    · rfl

theorem received_succ (sh : Shape) (w i : ℕ) :
    sh.received w (i + 1) = (sh.received w i).drained w ((w + i) % 12) := by
  have hro : sh.roPages - 4 * sh.fullSources w (i + 1) = sh.roPages - 4 * sh.fullSources w i -
      if (sh.received w i).full ((w + i) % 12) w then 4 else 0 := by
    rw [fullSources_succ]
    split_ifs <;> omega
  have hfull (res v : ℕ) : (sh.full res v && !(decide (res ∈ sources w (i + 1)) && v == w)) =
      ((sh.received w i).full res v && !(decide (res = (w + i) % 12) && v == w)) := by
    rw [sources_succ, received]
    simp only [mem_insert, Bool.decide_or]
    cases sh.full res v <;> cases decide (res ∈ sources w i) <;> cases v == w <;> simp
  rw [received, hro, drained]
  simp only [hfull]
  rfl

theorem receiveCost_succ (sh : Shape) (w i : ℕ) : sh.receiveCost w (i + 1) =
    sh.receiveCost w i + if (sh.received w i).full ((w + i) % 12) w
      then drainCost limit (sh.received w i).roPages (allocCost 0) else 6 := by
  simp only [receiveCost]
  rw [fullSources_succ]
  split_ifs with hfull
  · have hro : (sh.received w i).roPages = sh.roPages - 4 * sh.fullSources w i := rfl
    rw [hro, show allocCost 0 = 256 * 400 from rfl, limit, drainCost]
    omega
  · omega

end Shape

theorem queueLimit_eq : queueLimit = (limit : ℤ) := rfl

/-- A drained worker queue, in the ledger. -/
theorem Takes.ledger {row : ℤ} {col n k cost : ℕ} (h : Takes (.ucvf row col) n k cost st st') :
    st'.ledger = { st.ledger.pay cost with
      ucvf := Function.update st.ledger.ucvf row
        (Function.update (st.ledger.ucvf row) col (st.ledger.ucvf row col - n))
      numRoPages := st.ledger.numRoPages - k } := by
  obtain ⟨h1, h2, h3⟩ := ucvf_update h.tally
  refine Ledger.ext h2 h1 h3 h.numRoPages h.prediction h.isVer ?_
  exact (congrArg Nat.cast h.total).trans (by push_cast; rfl)

theorem receive_one (h : Fits c sh st.ledger) (hw : w < c.width) {res : ℕ} (hres : res < 12)
    (hfuel : limit < fuel) :
    ∃ st', receiveAll (.ucvf (c.row res) w) w fuel st = some st' ∧
      Fits c (sh.drained w res) st'.ledger ∧ st'.ledger.total = st.ledger.total +
        (if sh.full res w then drainCost limit sh.roPages (allocCost 0) else 6 : ℕ) := by
  have htally := h.ucvf res hres w hw
  have hver : st.isVer w = 0 := h.isVer w
  -- the queue is full or empty
  obtain ⟨n, hn, hcost, hk⟩ : ∃ n : ℕ, n = (if sh.full res w then limit else 0) ∧
      drainCost n sh.roPages (allocCost 0) =
        (if sh.full res w then drainCost limit sh.roPages (allocCost 0) else 6) ∧
      min sh.roPages (n / 4) = min sh.roPages (if sh.full res w then 4 else 0) := by
    refine ⟨_, rfl, ?_, ?_⟩ <;> split_ifs <;> simp [drainCost, limit]
  have htally' : st.ledger.ucvf (c.row res) w = n := by
    rw [htally, hn]
    split_ifs <;> rfl
  obtain ⟨st', hst', ht⟩ := (receiveAll_drains n : DrainsAt (.ucvf (c.row res) w) w n)
    sh.roPages fuel st (by rw [hn]; split_ifs <;> omega) htally' h.numRoPages
  rw [hver] at ht
  have hl := ht.ledger
  refine ⟨st', hst', ?_, ?_⟩
  · rw [hl, htally', sub_self]
    refine ⟨h.commit, ?_, h.reverse, ?_, h.prediction, h.isVer⟩
    · intro res' hres' v hv
      have hold := h.ucvf res' hres' v hv
      by_cases hr : res' = res
      · subst hr
        by_cases hvw : v = w
        · subst hvw
          simp [Shape.drained]
        · simp only [Function.update_self, Function.update_of_ne hvw, Shape.drained]
          simpa [hvw] using hold
      · have hrow : c.row res' ≠ c.row res := by
          intro he
          exact hr (Config.row_inj he)
        simp only [Function.update_of_ne hrow, Shape.drained]
        simpa [hr] using hold
    · have hro := h.numRoPages
      simp only [Shape.drained, hk]
      split_ifs <;> omega
  · rw [hl, ← hcost]
    rfl

/-- **Receiving**: the queues to the worker are drained. -/
theorem receive_fits (h : Fits c sh st.ledger) (hw : w < c.width) (hfuel : limit < fuel)
    (myStage : ℕ) :
    ∃ st', forLoop? 0 myStage 1 (fun i : ℕ =>
        receiveAll (.ucvf (c.modNumWorkers (w + i)) w) w fuel) st = some st' ∧
      Fits c (sh.received w myStage) st'.ledger ∧
      st'.ledger.total = st.ledger.total + sh.receiveCost w myStage := by
  have hrow (i : ℕ) : c.modNumWorkers (w + i) = c.row ((w + i) % 12) := rfl
  rw [forLoop?, rounds_one, Nat.sub_zero]
  refine forN?_induct (fun i (st' : State) => Fits c (sh.received w i) st'.ledger ∧
    st'.ledger.total = st.ledger.total + sh.receiveCost w i) ?_ ?_
  · have hzero : sh.received w 0 = sh := by
      simp [Shape.received, Shape.fullSources, Shape.sources]
    rw [hzero]
    exact ⟨h, by simp [Shape.receiveCost, Shape.fullSources, Shape.sources]⟩
  · rintro i _ st' ⟨hfits, htotal⟩
    obtain ⟨st'', hst'', hfits', htotal'⟩ := receive_one hfits hw
      (Nat.mod_lt (w + i) (by decide : 0 < 12)) hfuel
    refine ⟨st'', ?_, ?_, ?_⟩
    · rw [Nat.zero_add, Nat.one_mul, hrow]
      exact hst''
    · rw [Shape.received_succ]
      exact hfits'
    · rw [htotal', htotal, Shape.receiveCost_succ]
      push_cast
      ring

/-! ## The beginning of an iteration -/

namespace Shape

/-- After `begin_iter`. -/
def begun (sh : Shape) (c : Config) (w iter : ℕ) : Shape :=
  { sh.received w (c.stageAt w iter) with
    prediction := if iter ≠ 0 ∧ c.stageAt w iter = 0 then sh.prediction.updated else sh.prediction }

/-- What updating the predictions costs. -/
def predictCost (sh : Shape) (c : Config) (w iter : ℕ) : ℕ :=
  if iter ≠ 0 ∧ c.stageAt w iter = 0 then sh.prediction.updateCost + 6 * c.numAuxWorkers else 0

/-- What `begin_iter` costs. -/
def beginCost (sh : Shape) (c : Config) (w iter : ℕ) : ℕ :=
  sh.receiveCost w (c.stageAt w iter) + sh.predictCost c w iter +
    if w % c.numWorkersPerHeap ≤ iter then c.numHeaps else 0

end Shape

theorem setShadowHeaps_ledger (n : ℕ) (st : State) :
    (setShadowHeaps n st).ledger = st.ledger.pay n := by
  rw [setShadowHeaps, forLoop_charge, chargeAll_ledger, List.sum_replicate, rounds_one]
  simp

theorem beginIter_fits (iter : ℕ) (h : Fits c sh st.ledger) (hw : w < c.width)
    (hfuel : limit < fuel) :
    ∃ st', beginIter c fuel w iter (c.stageAt w iter) (c.flagAt w iter) st = some st' ∧
      Fits c (sh.begun c w iter) st'.ledger ∧
      st'.ledger.total = st.ledger.total + sh.beginCost c w iter := by
  obtain ⟨st₁, hrecv, hfits, htotal⟩ := receive_fits h hw hfuel (c.stageAt w iter)
  have hcond : (iter : ℤ) ≠ 0 ∧ (c.stageAt w iter : ℤ) = 0 ↔ iter ≠ 0 ∧ c.stageAt w iter = 0 := by
    omega
  have hmine : c.flagAt w iter ≠ 0 ↔ w % c.numWorkersPerHeap ≤ iter := by
    unfold Config.flagAt
    split_ifs with hle <;> simp [hle]
  -- the block that updates the predictions
  obtain ⟨st₂, hst₂, hfits₂, htotal₂⟩ : ∃ st₂, st₂ = (if (iter : ℤ) ≠ 0 ∧
      (c.stageAt w iter : ℤ) = 0 then updatePredictions c w st₁ else st₁) ∧
      Fits c (sh.begun c w iter) st₂.ledger ∧
      st₂.ledger.total = st₁.ledger.total + sh.predictCost c w iter := by
    have hp : st₁.prediction = sh.prediction := hfits.prediction
    refine ⟨_, rfl, ?_⟩
    rw [if_congr hcond rfl rfl]
    unfold Shape.begun Shape.predictCost
    split_ifs
    · rw [updatePredictions_ledger, hp]
      exact ⟨⟨hfits.commit, hfits.ucvf, hfits.reverse, hfits.numRoPages, rfl, hfits.isVer⟩, rfl⟩
    · exact ⟨hfits, by simp⟩
  rw [beginIter, Int.toNat_natCast, hrecv]
  refine ⟨_, rfl, ?_⟩
  simp only [← hst₂, if_congr hmine rfl rfl]
  rw [Shape.beginCost]
  by_cases hle : w % c.numWorkersPerHeap ≤ iter
  · rw [if_pos hle, if_pos hle, setShadowHeaps_ledger]
    refine ⟨hfits₂.pay _, ?_⟩
    rw [Ledger.pay, htotal₂, htotal]
    push_cast
    ring
  · rw [if_neg hle, if_neg hle]
    refine ⟨hfits₂, ?_⟩
    rw [htotal₂, htotal]
    push_cast
    ring

/-! ## The end of an iteration -/

/-- The packets of `end_iter` for the commit queues. -/
def Config.commitPackets (c : Config) (w iter : ℕ) : ℕ :=
  c.numPackets * if c.stageAt w iter = 0 then c.stagesAfter iter else 0

/-- The packets of `end_iter` for the worker queues in the row of `res`. -/
def Config.rowPackets (c : Config) (w iter res : ℕ) : ℕ :=
  c.numPackets * if c.stageAt w iter = 0 then 0 else c.stagesOf w iter res

namespace Shape

/-- After `end_iter`: the queues that packets were sent to are full. -/
def ended (sh : Shape) (c : Config) (w iter : ℕ) : Shape :=
  { sh with
    committed := sh.committed || decide (0 < c.commitPackets w iter)
    full := fun res v => sh.full res v || decide (0 < c.rowPackets w iter res)
    prediction := if c.stageAt w iter = 0 then sh.prediction else sh.prediction.counted c }

/-- What counting the predictions costs. -/
def countingCost (sh : Shape) (c : Config) (w iter : ℕ) : ℕ :=
  if c.stageAt w iter = 0 then 0 else sh.prediction.countingCost c

/-- The probes of the searches for a queue with space. -/
def endProbes (sh : Shape) (c : Config) (w iter : ℕ) : ℕ :=
  fillProbes limit c.numAuxWorkers (fun _ => sh.committed) (c.commitPackets w iter) +
    ∑ res ∈ range 12, fillProbes limit c.width (sh.full res) (c.rowPackets w iter res)

/-- What `end_iter` costs. -/
def endCost (sh : Shape) (c : Config) (w iter : ℕ) : ℕ :=
  sh.countingCost c w iter + c.numPackets * c.packetCost iter (c.stageAt w iter) +
    3 * sh.endProbes c w iter

end Shape

/-- Enough packets for queues that are full or empty. -/
theorem puts_fits {l l' : Ledger} {n k : ℕ} {m : ℕ → ℕ} (h : Fits c sh l) (hp : Puts c n m k l l')
    (hn : 2 ∣ n ∧ (0 < n → 12 * limit ≤ n))
    (hm : ∀ res, 2 ∣ m res ∧ (0 < m res → 12 * limit ≤ m res)) :
    Fits c { sh with
      committed := sh.committed || decide (0 < n)
      full := fun res v => sh.full res v || decide (0 < m res) } l' ∧
    l'.total = l.total + (k + 3 * (fillProbes limit c.numAuxWorkers (fun _ => sh.committed) n +
      ∑ res ∈ range 12, fillProbes limit c.width (sh.full res) (m res)) : ℕ) := by
  have heven : 2 ∣ limit := by decide
  have hpos : 0 < limit := by decide
  have hlimit : 12 * limit = 192 := rfl
  have haux := c.aux_lt
  obtain ⟨hcommit, hcommitProbes⟩ := levels_puts h.commit heven hpos hn.1 fun h0 =>
    (Nat.mul_le_mul_right limit haux.le).trans (hn.2 h0)
  have hrow (res : ℕ) (hres : res < 12) := levels_puts (h.ucvf res hres) heven hpos (hm res).1
    fun h0 => (Nat.mul_le_mul_right limit (Nat.sub_le 12 c.numAuxWorkers)).trans ((hm res).2 h0)
  rw [← queueLimit_eq, ← hp.commit] at hcommit hcommitProbes
  refine ⟨⟨hcommit, ?_, ?_, ?_, ?_, ?_⟩, ?_⟩
  · intro res hres
    have hlevels := (hrow res hres).1
    rw [← queueLimit_eq, ← hp.ucvf res hres] at hlevels
    exact hlevels
  · rw [hp.rest]
    exact h.reverse
  · rw [hp.rest]
    exact h.numRoPages
  · rw [hp.rest]
    exact h.prediction
  · rw [hp.rest]
    exact h.isVer
  · have hsum : 2 * ((∑ res ∈ range 12, fillProbes limit c.width (sh.full res) (m res) : ℕ) : ℤ) =
        (∑ res ∈ range 12, m res : ℕ) * c.width +
          (∑ res ∈ range 12, FirstFit.weight c.width (l'.ucvf (c.row res)) -
            ∑ res ∈ range 12, FirstFit.weight c.width (l.ucvf (c.row res))) := by
      push_cast
      rw [mul_sum, sum_mul, ← sum_sub_distrib, ← sum_add_distrib]
      refine sum_congr rfl ?_
      intro res hres
      have hprobes := (hrow res (mem_range.1 hres)).2
      rw [← queueLimit_eq, ← hp.ucvf res (mem_range.1 hres)] at hprobes
      exact hprobes
    have htotal := hp.total
    simp only [Ledger.weight] at htotal
    push_cast at *
    linarith

theorem Config.packets_enough (c : Config) (x : ℕ) :
    2 ∣ c.numPackets * x ∧ (0 < c.numPackets * x → 12 * limit ≤ c.numPackets * x) := by
  have hpackets : c.numPackets * x = (c.numGlobals + c.numHeaps + c.numStacks) * x * 1026 := by
    unfold numPackets
    ring
  rw [hpackets, limit]
  constructor <;> omega

theorem endIter_fits (iter : ℕ) (h : Fits c sh st.ledger) (hw : w < 12) :
    Fits c (sh.ended c w iter) (endIter c w iter (c.stageAt w iter) st).ledger ∧
    (endIter c w iter (c.stageAt w iter) st).ledger.total =
      st.ledger.total + sh.endCost c w iter := by
  -- the block that counts the predictions
  obtain ⟨st₁, hst₁, hfits, htotal⟩ : ∃ st₁,
      endIter c w iter (c.stageAt w iter) st = forwardPages c w iter (c.stageAt w iter) st₁ ∧
      Fits c { sh with prediction := (sh.ended c w iter).prediction } st₁.ledger ∧
      st₁.ledger.total = st.ledger.total + sh.countingCost c w iter := by
    have hp : st.prediction = sh.prediction := h.prediction
    refine ⟨_, rfl, ?_⟩
    unfold Shape.ended Shape.countingCost
    by_cases hstage : c.stageAt w iter = 0
    · simp only [hstage, Nat.cast_zero, ne_eq, not_true_eq_false, if_false, if_true]
      exact ⟨h, by simp⟩
    · simp only [ne_eq, Nat.cast_eq_zero, hstage, not_false_eq_true, if_true, if_false]
      rw [counted_ledger, hp]
      exact ⟨⟨h.commit, h.ucvf, h.reverse, h.numRoPages, rfl, h.isVer⟩, rfl⟩
  have hputs := forwardPages_forwards (c := c) hw iter (c.stageAt w iter) st₁
  unfold Forwards at hputs
  simp only [Nat.cast_eq_zero] at hputs
  obtain ⟨hfits', htotal'⟩ := puts_fits hfits hputs (c.packets_enough _)
    fun res => c.packets_enough _
  rw [hst₁]
  refine ⟨hfits', ?_⟩
  rw [htotal', htotal, Shape.endCost]
  push_cast
  rw [add_assoc, add_assoc]
  rfl

/-! ## The run -/

namespace Shape

/-- An iteration. -/
def next (sh : Shape) (c : Config) (w iter : ℕ) : Shape := (sh.begun c w iter).ended c w iter

/-- What an iteration costs. -/
def price (sh : Shape) (c : Config) (w iter : ℕ) : ℕ :=
  sh.beginCost c w iter + (sh.begun c w iter).endCost c w iter

/-- As the program starts. -/
def init (c : Config) : Shape where
  committed := false
  full _ _ := false
  roPages := c.numHeaps / 4
  prediction := (State.init c).prediction

/-- After iterations of a worker. -/
def afterIters (c : Config) (w : ℕ) (sh : Shape) : ℕ → Shape
  | 0 => sh
  | iter + 1 => (afterIters c w sh iter).next c w iter

/-- After the workers before `w`. -/
def afterWorkers (c : Config) : ℕ → Shape
  | 0 => init c
  | w + 1 => afterIters c w (afterWorkers c w) c.iters

end Shape

/-- The shape as a worker starts an iteration. -/
def Config.shapeAt (c : Config) (w iter : ℕ) : Shape :=
  Shape.afterIters c w (Shape.afterWorkers c w) iter

/-- **The price of a run**, in the constants. -/
def price (c : Config) : ℕ :=
  c.beginCost + ∑ w ∈ range c.width, ∑ iter ∈ range c.iters, (c.shapeAt w iter).price c w iter +
    c.endCost

/-- The calls of an iteration. -/
theorem iterCalls_fits (iter : ℕ) (h : Fits c sh st.ledger) (hw : w < c.width)
    (hfuel : limit < fuel) :
    ∃ st', runMain c fuel (iterCalls w iter (varsAt c.numWorkersPerHeap c.stride w iter)) st =
        some st' ∧ Fits c (sh.next c w iter) st'.ledger ∧
      st'.ledger.total = st.ledger.total + sh.price c w iter := by
  obtain ⟨st₁, hbegin, hfits₁, htotal₁⟩ := beginIter_fits iter h hw hfuel
  have hbusy : busyWait w fuel st₁ = some st₁ := busyWait_empty (by omega) (hfits₁.reverse w)
  obtain ⟨hfits₂, htotal₂⟩ := endIter_fits iter hfits₁ (hw.trans_le (Nat.sub_le ..))
  refine ⟨endIter c w iter (c.stageAt w iter) st₁, ?_, hfits₂, htotal₂.trans ?_⟩
  · have hstage : (varsAt c.numWorkersPerHeap c.stride w iter).myStage = c.stageAt w iter :=
      varsAt_myStage iter
    rw [runMain, ← mainIter_eq, mainIter, isMyIter_eq, hstage, hbegin, Option.bind_eq_bind,
      Option.bind_some, hbusy]
    split_ifs <;> rfl
  · rw [htotal₁, Shape.price]
    push_cast
    ring

/-- The first `n` iterations of a worker. -/
theorem workerCalls_fits (h : Fits c (c.shapeAt w 0) st.ledger) (hw : w < c.width)
    (hfuel : limit < fuel) (n : ℕ) :
    ∃ st', runMain c fuel (c.workerCalls w n) st = some st' ∧ Fits c (c.shapeAt w n) st'.ledger ∧
      st'.ledger.total = st.ledger.total +
        (∑ iter ∈ range n, (c.shapeAt w iter).price c w iter : ℕ) := by
  induction n with
  | zero => exact ⟨st, rfl, h, by simp⟩
  | succ n ih =>
    obtain ⟨st₁, hst₁, hfits, htotal⟩ := ih
    obtain ⟨st', hst', hfits', htotal'⟩ := iterCalls_fits n hfits hw hfuel
    refine ⟨st', ?_, hfits', ?_⟩
    · rw [c.workerCalls_succ, runMain_append, hst₁, Option.bind_some, hst']
    · rw [htotal', htotal, sum_range_succ]
      push_cast
      ring

theorem fits_init (c : Config) : Fits c (Shape.init c) (State.init c).ledger where
  commit _ _ := rfl
  ucvf _ _ _ _ := rfl
  reverse _ := rfl
  numRoPages := by
    change (c.numHeaps : ℤ) / 4 = (c.numHeaps / 4 : ℕ)
    omega
  prediction := rfl
  isVer _ := rfl

/-- The first `n` workers. -/
theorem workersCalls_fits (c : Config) (hfuel : limit < fuel) (n : ℕ) (hn : n ≤ c.width) :
    ∃ st, runMain c fuel ((List.range n).flatMap fun w => c.workerCalls w c.iters)
        (beginInvocation c (State.init c)) = some st ∧
      Fits c (c.shapeAt n 0) st.ledger ∧ st.ledger.total = c.beginCost +
        (∑ w ∈ range n, ∑ iter ∈ range c.iters, (c.shapeAt w iter).price c w iter : ℕ) := by
  induction n with
  | zero =>
    refine ⟨_, rfl, ?_⟩
    rw [(beginInvocation_pays c).ledger]
    refine ⟨(fits_init c).pay _, ?_⟩
    simp [Ledger.pay, State.ledger, State.total, State.init, charges]
  | succ n ih =>
    obtain ⟨st, hst, hfits, htotal⟩ := ih (Nat.le_of_succ_le hn)
    obtain ⟨st', hst', hfits', htotal'⟩ := workerCalls_fits hfits hn hfuel c.iters
    refine ⟨st', ?_, hfits', ?_⟩
    · rw [List.range_succ, List.flatMap_append, List.flatMap_singleton, runMain_append, hst,
        Option.bind_some, hst']
    · rw [htotal', htotal, sum_range_succ]
      push_cast
      ring

/-- **The charges of a run** add up to its price. -/
theorem main_total (c : Config) (hfuel : limit < fuel) :
    ∃ st, main c fuel = some st ∧ st.total = price c := by
  obtain ⟨st, hrun, -, htotal⟩ := workersCalls_fits c hfuel c.width le_rfl
  have hcalls : runMain c fuel c.mainCalls (beginInvocation c (State.init c)) = some st := hrun
  have hend := congrArg Ledger.total (endInvocation_pays c st).ledger
  refine ⟨endInvocation c st, ?_, ?_⟩
  · rw [main_eq, hcalls, Option.map_some]
  · have : ((endInvocation c st).total : ℤ) = price c := by
      rw [price]
      push_cast at htotal ⊢
      exact hend.trans (by rw [Ledger.pay, htotal])
    exact_mod_cast this

/-! ## The counter -/

/-- The run of `main` returns, and at no point of it has the counter wrapped. -/
def NeverWraps (c : Config) : Prop :=
  ∀ fuel, limit < fuel → ∃ st, main c fuel = some st ∧ Counter.Exact 32 (charges st.trace)

theorem NeverWraps.price_lt (h : NeverWraps c) : price c < 2 ^ 31 := by
  obtain ⟨st, hst, htotal⟩ := main_total c (Nat.lt_succ_self limit)
  obtain ⟨st', hst', hexact⟩ := h _ (Nat.lt_succ_self limit)
  rw [hst] at hst'
  cases hst'
  rw [← htotal]
  exact (Counter.exact_iff (Nat.succ_pos _) _).1 hexact

/-- The packets alone are a part of the price. -/
theorem packets_le_price (c : Config) :
    ∑ w ∈ range c.width, ∑ iter ∈ range c.iters,
      c.numPackets * c.packetCost iter (c.stageAt w iter) ≤ price c := by
  have hle : ∑ w ∈ range c.width, ∑ iter ∈ range c.iters,
        c.numPackets * c.packetCost iter (c.stageAt w iter) ≤
      ∑ w ∈ range c.width, ∑ iter ∈ range c.iters, (c.shapeAt w iter).price c w iter := by
    refine sum_le_sum ?_
    intro w _
    refine sum_le_sum ?_
    intro iter _
    unfold Shape.price Shape.endCost
    omega
  unfold price
  omega

/-- **The counter never wraps** iff the price is in its range. -/
theorem neverWraps_iff (c : Config) : NeverWraps c ↔ price c < 2 ^ 31 := by
  constructor
  · exact NeverWraps.price_lt
  · intro h fuel hfuel
    obtain ⟨st, hst, htotal⟩ := main_total c hfuel
    refine ⟨st, hst, (Counter.exact_iff (Nat.succ_pos _) _).2 ?_⟩
    rw [← htotal] at h
    exact h

/-- With the constants of the source, the packets of ten workers are too many. -/
theorem wraps_default : ¬ NeverWraps .default := by
  intro h
  have hpackets : 2 ^ 31 ≤ ∑ w ∈ range Config.default.width, ∑ iter ∈ range Config.default.iters,
      Config.default.numPackets *
        Config.default.packetCost iter (Config.default.stageAt w iter) := by decide
  exact absurd (hpackets.trans (packets_le_price .default)) (not_le.2 h.price_lt)

end SpecPriv.Simple
