/-
  The beginning and the end of an invocation.

  Both run loops over the tables of queues, the buffers and the packets.  The
  tables are empty at first, so that clearing them again changes nothing, and
  all that remains of these functions is what they cost.
-/
import SpecPriv.Simple.Prediction

namespace SpecPriv.Simple

open Loop Finset

variable {c : Config} {st st' st'' : State}

/-- Nothing but the costs changed. -/
structure Pays (k : ℕ) (st st' : State) : Prop where
  tally : st'.tally = st.tally
  ledger : st'.ledger = st.ledger.pay k

namespace Pays

variable {k k' : ℕ}

theorem trans (h : Pays k st st') (h' : Pays k' st' st'') : Pays (k + k') st st'' where
  tally := h'.tally.trans h.tally
  ledger := by
    rw [h'.ledger, h.ledger, Ledger.pay_pay]
    push_cast
    rfl

theorem prediction (h : Pays k st st') : st'.prediction = st.prediction :=
  congrArg Ledger.prediction h.ledger

end Pays

/-- From states with these tallies and predictions, `f` only costs `k`. -/
def Costs (tally : Tally → ℤ) (p : Prediction) (k : ℕ) (f : State → State) : Prop :=
  ∀ st, st.tally = tally → st.prediction = p → Pays k st (f st)

namespace Costs

variable {tally : Tally → ℤ} {p : Prediction} {k k' : ℕ} {f g : State → State}

theorem charge (tally : Tally → ℤ) (p : Prediction) (n : ℕ) : Costs tally p n (State.charge n) := by
  intro st _ _
  exact ⟨rfl, charge_ledger n⟩

theorem comp (hf : Costs tally p k f) (hg : Costs tally p k' g) :
    Costs tally p (k + k') fun st => g (f st) := by
  intro st ht hp
  have h := hf st ht hp
  exact h.trans (hg (f st) (h.tally.trans ht) (h.prediction.trans hp))

theorem forLoop {body : ℕ → State → State} {k : ℕ → ℕ} (h : ∀ i, Costs tally p (k i) (body i))
    (start stop : ℕ) :
    Costs tally p (∑ i ∈ range (stop - start), k (start + i)) (Loop.forLoop start stop 1 body) := by
  intro st ht hp
  rw [Loop.forLoop, rounds_one]
  refine forN_induct (fun j (st' : State) => Pays (∑ i ∈ range j, k (start + i)) st st') ?_ ?_
  · exact ⟨rfl, by simp [Ledger.pay]⟩
  · intro j _ st' hst'
    rw [sum_range_succ, Nat.one_mul]
    exact hst'.trans (h _ st' (hst'.tally.trans ht) (hst'.prediction.trans hp))

/-- A loop all of whose rounds cost the same. -/
theorem forLoop_const {body : ℕ → State → State} (h : ∀ i, Costs tally p k (body i))
    (start stop : ℕ) : Costs tally p ((stop - start) * k) (Loop.forLoop start stop 1 body) := by
  have := Costs.forLoop h start stop
  rwa [sum_const, card_range, smul_eq_mul] at this

end Costs

/-! ## The tables of queues -/

/-- What the loops over the four tables cost, at `t` for a row and `q` for a queue. -/
def tablesCost (t q W A : ℕ) : ℕ :=
  t + ∑ i ∈ range W, (t + (W - (i + 1)) * q) + (t + W * (t + A * q)) + (t + A * q) + (t + W * q)

section Tables

variable {tally : Tally → ℤ} {p : Prediction} {t q : ℕ} {queue : Tally → State → State}

theorem tables_costs (h : ∀ cell, Costs tally p q (queue cell)) (W A : ℕ) :
    Costs tally p (tablesCost t q W A) fun st =>
      let st := st.charge t
      let st := forLoop 0 W 1 (fun i st =>
        let st := st.charge t
        forLoop (i + 1) W 1 (fun j => queue (.ucvf i j)) st) st
      let st := st.charge t
      let st := forLoop 0 W 1 (fun i st =>
        let st := st.charge t
        forLoop 0 A 1 (fun j => queue (.queue i j)) st) st
      let st := st.charge t
      let st := forLoop 0 A 1 (fun j => queue (.commit j)) st
      let st := st.charge t
      forLoop 0 W 1 (fun j => queue (.reverse j)) st := by
  have hcharge := Costs.charge tally p t
  have hucvf := Costs.forLoop (fun i => hcharge.comp
    (Costs.forLoop_const (fun j => h (.ucvf (i : ℕ) (j : ℕ))) (i + 1) W)) 0 W
  have hqueue := Costs.forLoop_const (fun i => hcharge.comp
    (Costs.forLoop_const (fun j => h (.queue (i : ℕ) (j : ℕ))) 0 A)) 0 W
  have hcommit := Costs.forLoop_const (fun j => h (.commit (j : ℕ))) 0 A
  have hreverse := Costs.forLoop_const (fun j => h (.reverse (j : ℕ))) 0 W
  have := (((((((hcharge.comp hucvf).comp hcharge).comp hqueue).comp hcharge).comp
    hcommit).comp hcharge).comp hreverse)
  convert this using 1
  simp only [tablesCost, Nat.sub_zero, Nat.zero_add, Nat.add_assoc]

end Tables

/-! ## The calls -/

/-- What `begin_invocation` costs. -/
def Config.beginCost (c : Config) : ℕ :=
  tablesCost 200 (200 + queueSize * 13) c.width c.numAuxWorkers +
    c.maxLoads * (c.maxContexts * 400) + 12 * 200 + 12 * 200 + 200

/-- What `end_invocation` costs. -/
def Config.endCost (c : Config) : ℕ :=
  tablesCost 500 500 c.width c.numAuxWorkers +
    c.maxLoads * (c.maxContexts * 1000) + 12 * 500 + 12 * 500 + 500

theorem Config.numWorkers_toNat (c : Config) : c.numWorkers.toNat = c.width := by
  rw [c.numWorkers_eq, Int.toNat_natCast]
  rfl

theorem Config.numAllWorkers_toNat (c : Config) : c.numAllWorkers.toNat = 12 := by
  unfold numAllWorkers
  omega

theorem initQueue_costs {p : Prediction} (cell : Tally) (n : ℕ) :
    Costs (fun _ => 0) p (200 + n * 13) (initQueue cell n) := by
  intro st ht hp
  have hstore : ((st.charge 200).store cell 0).tally = st.tally := by
    rw [State.store_tally, State.charge_tally, ht]
    exact Function.update_eq_self cell fun _ => (0 : ℤ)
  have hledger : ((st.charge 200).store cell 0).ledger = st.ledger.pay 200 := by
    simp only [State.ledger, Ledger.pay, hstore]
    simp
  have hloop := Costs.forLoop_const (fun _ => Costs.charge (fun _ => 0) p 13) 0 n
  exact Pays.trans ⟨hstore, hledger⟩ (hloop _ (hstore.trans ht) hp)

theorem initQueues_costs (c : Config) {p : Prediction} :
    Costs (fun _ => 0) p (tablesCost 200 (200 + queueSize * 13) c.width c.numAuxWorkers)
      (initQueues c.numWorkers c.numAuxWorkers queueSize) := by
  intro st ht hp
  unfold initQueues
  rw [c.numWorkers_toNat, Int.toNat_natCast]
  exact tables_costs (fun cell => initQueue_costs cell queueSize) c.width c.numAuxWorkers st ht hp

theorem uninitQueues_costs (c : Config) {tally : Tally → ℤ} {p : Prediction} :
    Costs tally p (tablesCost 500 500 c.width c.numAuxWorkers)
      (uninitQueues c.numWorkers c.numAuxWorkers) := by
  intro st ht hp
  unfold uninitQueues
  rw [c.numWorkers_toNat, Int.toNat_natCast]
  exact tables_costs (fun _ => Costs.charge tally p 500) c.width c.numAuxWorkers st ht hp

/-- The buffers are cleared; they were clear. -/
theorem initBuffers_costs (c : Config) {tally : Tally → ℤ} :
    Costs tally (State.init c).prediction (c.maxLoads * (c.maxContexts * 400))
      (initBuffers c.maxLoads c.maxContexts) := by
  have hclear (i j : ℕ) : setEntry (fun _ _ => 0) i j 0 = fun _ _ => 0 := by
    unfold setEntry
    rw [Function.update_eq_self j fun _ => (0 : ℤ), Function.update_eq_self i fun _ _ => (0 : ℤ)]
  have hbody (i j : ℕ) : Costs tally (State.init c).prediction 400 fun st =>
      ((st.charge 400).setLoopInvariantBuffer i j 0).setLinearPredictors i j 0 := by
    intro st _ hp
    refine ⟨rfl, ?_⟩
    have hset : (((st.charge 400).setLoopInvariantBuffer i j 0).setLinearPredictors
        i j 0).prediction = st.prediction := by
      simp [State.setLoopInvariantBuffer, State.setLinearPredictors, hp, State.init, hclear]
    rw [setLinearPredictors_ledger, hset, setLoopInvariantBuffer_ledger, charge_ledger]
    rfl
  exact Costs.forLoop_const (fun i => Costs.forLoop_const (hbody i) 0 c.maxContexts) 0 c.maxLoads

theorem initHeaps_costs (c : Config) {tally : Tally → ℤ} {p : Prediction}
    (globalSize heapSize stackSize : ℤ) :
    Costs tally p 0 (initHeaps c globalSize heapSize stackSize) := by
  have hsame {st st' : State} (h : st'.ledger = st.ledger) :
      st'.ledger = st.ledger.pay (0 : ℕ) := by
    simpa [Ledger.pay] using h
  have hheaps : ∀ i : ℕ, Costs tally p 0 fun st =>
      { st with shadowHeaps := Function.update st.shadowHeaps i heapSize } :=
    fun _ _ _ _ => ⟨rfl, hsame rfl⟩
  have hglobals : ∀ i : ℕ, Costs tally p 0 fun st =>
      { st with shadowGlobals := Function.update st.shadowGlobals i globalSize } :=
    fun _ _ _ _ => ⟨rfl, hsame rfl⟩
  have hstacks : ∀ i : ℕ, Costs tally p 0 fun st =>
      { st with shadowStacks := Function.update st.shadowStacks i stackSize } :=
    fun _ _ _ _ => ⟨rfl, hsame rfl⟩
  exact ((Costs.forLoop_const hheaps 0 c.numHeaps).comp
    (Costs.forLoop_const hglobals 0 c.numGlobals)).comp
    (Costs.forLoop_const hstacks 0 c.numStacks)

/-- `begin_invocation` only costs, as the program starts. -/
theorem beginInvocation_pays (c : Config) :
    Pays c.beginCost (State.init c) (beginInvocation c (State.init c)) := by
  have hpackets := Costs.forLoop_const
    (fun _ => Costs.charge (fun _ => 0) (State.init c).prediction 200) 0 c.numAllWorkers.toNat
  have := ((((initQueues_costs c).comp (initBuffers_costs c)).comp (hpackets.comp hpackets)).comp
    (initHeaps_costs c c.maxGlobalSize c.maxHeapSize c.maxStackSize)).comp (Costs.charge _ _ 200)
  have hcost : c.beginCost = tablesCost 200 (200 + queueSize * 13) c.width c.numAuxWorkers +
      c.maxLoads * (c.maxContexts * 400) + ((12 - 0) * 200 + (12 - 0) * 200) + 0 + 200 := by
    unfold Config.beginCost
    omega
  rw [c.numAllWorkers_toNat, ← hcost] at this
  unfold beginInvocation initPackets
  rw [c.numAllWorkers_toNat]
  exact this (State.init c) rfl rfl

theorem endInvocation_pays (c : Config) (st : State) :
    Pays c.endCost st (endInvocation c st) := by
  have hbuffers := Costs.forLoop_const (fun _ => Costs.forLoop_const
    (fun _ => Costs.charge st.tally st.prediction 1000) 0 c.maxContexts)
    0 c.maxLoads
  have hpackets := Costs.forLoop_const (fun _ => Costs.charge st.tally st.prediction 500)
    0 c.numAllWorkers.toNat
  have := (((uninitQueues_costs c).comp hbuffers).comp (hpackets.comp hpackets)).comp
    (Costs.charge _ _ 500)
  have hcost : c.endCost = tablesCost 500 500 c.width c.numAuxWorkers +
      c.maxLoads * (c.maxContexts * 1000) + ((12 - 0) * 500 + (12 - 0) * 500) + 500 := by
    unfold Config.endCost
    omega
  rw [c.numAllWorkers_toNat, Nat.sub_zero, Nat.sub_zero, ← hcost] at this
  unfold endInvocation uninitPackets
  rw [c.numAllWorkers_toNat]
  exact this st rfl rfl

end SpecPriv.Simple
