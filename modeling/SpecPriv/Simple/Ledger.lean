/-
  What the charges of the simplified translation depend on.

  `State.ledger` keeps of a state what its charges depend on, and the sum of
  the charges so far.  A packet is put into a row of queues first fit
  (`FirstFit.put`), and pays for the probes of the search.

  `Puts c n m k` relates the ledgers before and after any number of packets:
  the probes are paid by the weight of the tallies, so that they add up.
  `forwardPages_forwards` says which packets a call of `end_iter` sends.
-/
import Mathlib.Algebra.BigOperators.Pi
import Mathlib.Data.Nat.Count
import Mathlib.Tactic.Linarith
import SpecPriv.Simple.Capacity

namespace SpecPriv.Simple

open Loop FirstFit Finset

@[ext] structure Ledger where
  commit : ℕ → ℤ
  ucvf : ℤ → ℕ → ℤ
  reverse : ℤ → ℤ
  numRoPages : ℤ
  prediction : Prediction
  isVer : ℤ → ℤ
  total : ℤ

def State.ledger (st : State) : Ledger where
  commit i := st.tally (.commit i)
  ucvf row i := st.tally (.ucvf row i)
  reverse i := st.tally (.reverse i)
  numRoPages := st.numRoPages
  prediction := st.prediction
  isVer := st.isVer
  total := st.total

/-- Add to the sum of the charges. -/
def Ledger.pay (k : ℤ) (l : Ledger) : Ledger := { l with total := l.total + k }

theorem Ledger.pay_pay (j k : ℤ) (l : Ledger) : (l.pay j).pay k = l.pay (j + k) := by
  simp [pay, add_assoc]

variable {c : Config} {st st' : State}

@[simp] theorem charge_ledger (n : ℕ) : (st.charge n).ledger = st.ledger.pay n := by
  simp [State.ledger, Ledger.pay]

@[simp] theorem chargeAll_ledger (cs : List ℕ) :
    (st.chargeAll cs).ledger = st.ledger.pay (cs.sum : ℕ) := by
  simp [State.ledger, Ledger.pay]

@[simp] theorem store_queue_ledger (row col v : ℤ) :
    (st.store (.queue row col) v).ledger = st.ledger := by
  simp [State.ledger]

/-- A changed tally of a worker queue, in the ledger. -/
theorem ucvf_update {row : ℤ} {i : ℕ} {v : ℤ}
    (h : st'.tally = Function.update st.tally (.ucvf row i) v) :
    st'.ledger.ucvf = Function.update st.ledger.ucvf row
      (Function.update (st.ledger.ucvf row) i v) ∧
    st'.ledger.commit = st.ledger.commit ∧ st'.ledger.reverse = st.ledger.reverse := by
  simp only [State.ledger, h]
  refine ⟨?_, ?_, ?_⟩
  · funext row' j
    by_cases hr : row' = row
    · subst hr
      by_cases hj : j = i
      · subst hj
        simp
      · rw [Function.update_self, Function.update_of_ne hj,
          Function.update_of_ne (by simpa using hj)]
    · rw [Function.update_of_ne hr, Function.update_of_ne (by simp [hr])]
  · funext j
    rw [Function.update_of_ne (by simp)]
  · funext j
    rw [Function.update_of_ne (by simp)]

/-! ## One packet -/

/-- A search of a row of queues, and the produce after it, put a packet into the
    row first fit. -/
theorem put_row {row : ℕ → Tally} (hrow : Function.Injective row) (size : ℕ) (st : State) :
    let r := getAvailable (fun idx => st.tally (row idx) ≥ queueLimit) (row 0) size st
    let t := fun i => st.tally (row i)
    (∀ i, (queueProduce (row r.1) r.2).tally (row i) = put queueLimit size t i) ∧
    (∀ cell, (∀ i, cell ≠ row i) → (queueProduce (row r.1) r.2).tally cell = st.tally cell) ∧
    (queueProduce (row r.1) r.2).numRoPages = st.numRoPages ∧
    (queueProduce (row r.1) r.2).prediction = st.prediction ∧
    (queueProduce (row r.1) r.2).isVer = st.isVer ∧
    (queueProduce (row r.1) r.2).total = st.total + (1206 + 3 * probes queueLimit size t) := by
  intro r t
  have hupdate (i j : ℕ) (v : ℤ) : Function.update st.tally (row j) v (row i) =
      Function.update t j v i := by
    by_cases h : i = j
    · rw [h, Function.update_self, Function.update_self]
    · rw [Function.update_of_ne h, Function.update_of_ne (hrow.ne h)]
  rcases getAvailable_cases (fun idx => st.tally (row idx) ≥ queueLimit) (row 0) size st with
    ⟨hlt, -, heq⟩ | ⟨hall, -, heq⟩
  · have hr : r = (probes queueLimit size t,
        st.chargeAll (List.replicate (probes queueLimit size t) 3 ++ [1200])) := heq
    have hne : probes queueLimit size t ≠ size := ne_of_lt hlt
    rw [hr]
    refine ⟨?_, ?_, rfl, rfl, rfl, ?_⟩
    · intro i
      rw [put, if_neg hne]
      exact hupdate i _ _
    · intro cell hcell
      exact Function.update_of_ne (hcell _) _ _
    · simp [queueProduce]
      omega
  · have hprobes : probes queueLimit size t = size := hall
    have hr : r = (0, (st.chargeAll (List.replicate size 3 ++ [1200])).store (row 0)
        (st.tally (row 0) - 2)) := heq
    rw [hr]
    refine ⟨?_, ?_, rfl, rfl, rfl, ?_⟩
    · intro i
      rw [put, if_pos hprobes]
      simp only [queueProduce, State.store_tally, State.charge_tally, State.chargeAll_tally,
        Function.update_self, Function.update_idem]
      exact hupdate i _ _
    · intro cell hcell
      simp [queueProduce, Function.update_of_ne (hcell 0)]
    · rw [hprobes]
      simp [queueProduce]
      omega

theorem putCommit_ledger (size : ℕ) (st : State) :
    let r := getAvailableCommitProcessPacket size st
    (queueProduce (.commit r.1) r.2).ledger =
      { st.ledger.pay (1206 + 3 * probes queueLimit size st.ledger.commit) with
        commit := put queueLimit size st.ledger.commit } := by
  have hrow : Function.Injective fun i : ℕ => Tally.commit i := by
    intro i j h
    simpa using h
  obtain ⟨h1, h2, h3, h4, h5, h6⟩ := put_row hrow size st
  refine Ledger.ext (funext h1) ?_ ?_ h3 h4 h5 ?_
  · funext row i
    exact h2 (.ucvf row i) (by simp)
  · funext i
    exact h2 (.reverse i) (by simp)
  · exact (congrArg Nat.cast h6).trans (by push_cast; rfl)

theorem putUcvf_ledger (row : ℤ) (size : ℕ) (st : State) :
    let r := getAvailableUcvfPacket row size st
    (queueProduce (.ucvf row r.1) r.2).ledger =
      { st.ledger.pay (1206 + 3 * probes queueLimit size (st.ledger.ucvf row)) with
        ucvf := Function.update st.ledger.ucvf row
          (put queueLimit size (st.ledger.ucvf row)) } := by
  have hrow : Function.Injective fun i : ℕ => Tally.ucvf row i := by
    intro i j h
    simpa using h
  obtain ⟨h1, h2, h3, h4, h5, h6⟩ := put_row hrow size st
  refine Ledger.ext ?_ ?_ ?_ h3 h4 h5 ?_
  · funext i
    exact h2 (.commit i) (by simp)
  · funext row' i
    by_cases hr : row' = row
    · subst hr
      exact (h1 i).trans (by simp only [Function.update_self]; rfl)
    · exact (h2 (.ucvf row' i) (by simp [hr])).trans (by simp only [Function.update_of_ne hr]; rfl)
  · funext i
    exact h2 (.reverse i) (by simp)
  · exact (congrArg Nat.cast h6).trans (by push_cast; rfl)

/-- The tail of `forward_packet`. -/
theorem putQueue_ledger (wid : ℤ) (st : State) :
    let r := getAvailablePacket c wid c.numAuxWorkers st
    (queueProduce (.queue wid r.1) r.2).ledger = st.ledger.pay (1206 + 3 * c.numAuxWorkers) := by
  intro r
  have hr : r = (0, (st.chargeAll (List.replicate c.numAuxWorkers 3 ++ [1200])).store
      (.queue wid 0) (st.tally (.queue wid 0) - 2)) :=
    getAvailablePacket_evicts c wid c.numAuxWorkers st
  rw [hr, queueProduce, store_queue_ledger, charge_ledger, store_queue_ledger, chargeAll_ledger,
    Ledger.pay_pay]
  congr 1
  simp
  omega

/-! ## Many packets -/

/-- The row of the sources with the remainder `res`. -/
def Config.row (c : Config) (res : ℕ) : ℤ := res - c.numAuxWorkers

theorem Config.row_inj {res res' : ℕ} (h : c.row res = c.row res') : res = res' := by
  unfold Config.row at h
  omega

/-- The number of workers, as the tables count them. -/
def Config.width (c : Config) : ℕ := 12 - c.numAuxWorkers

/-- The weight of all the tallies. -/
def Ledger.weight (c : Config) (l : Ledger) : ℤ :=
  FirstFit.weight c.numAuxWorkers l.commit +
    ∑ res ∈ range 12, FirstFit.weight c.width (l.ucvf (c.row res))

/-- Packets were put into the queues, `n` into the commit queues and `m res`
    into the row of the remainder `res`, and `k` was paid besides the probes. -/
structure Puts (c : Config) (n : ℕ) (m : ℕ → ℕ) (k : ℕ) (l l' : Ledger) : Prop where
  commit : l'.commit = (put queueLimit c.numAuxWorkers)^[n] l.commit
  ucvf : ∀ res < 12, l'.ucvf (c.row res) = (put queueLimit c.width)^[m res] (l.ucvf (c.row res))
  rest : l' = { l with commit := l'.commit, ucvf := l'.ucvf, total := l'.total }
  total : 2 * l'.total = 2 * l.total + 2 * k +
    3 * (n * c.numAuxWorkers + (∑ res ∈ range 12, m res : ℕ) * c.width) +
    3 * (l'.weight c - l.weight c)

namespace Puts

variable {n n' k k' : ℕ} {m m' : ℕ → ℕ} {l l' l'' : Ledger}

theorem pay (c : Config) (k : ℕ) (l : Ledger) : Puts c 0 0 k l (l.pay k) where
  commit := rfl
  ucvf _ _ := rfl
  rest := rfl
  total := by
    simp only [Ledger.pay, Ledger.weight]
    simp
    ring

theorem refl (c : Config) (l : Ledger) : Puts c 0 0 0 l l := by
  simpa [Ledger.pay] using Puts.pay c 0 l

theorem trans (h : Puts c n m k l l') (h' : Puts c n' m' k' l' l'') :
    Puts c (n + n') (m + m') (k + k') l l'' where
  commit := by rw [h'.commit, h.commit, ← Function.iterate_add_apply, Nat.add_comm]
  ucvf res hres := by
    rw [h'.ucvf res hres, h.ucvf res hres, ← Function.iterate_add_apply, Nat.add_comm]
    rfl
  rest := by rw [h'.rest, h.rest]
  total := by
    have h1 := h.total
    have h2 := h'.total
    simp only [Pi.add_apply, sum_add_distrib]
    push_cast at *
    linarith

theorem commit_one (c : Config) (l : Ledger) : Puts c 1 0 1206 l
    { l.pay (1206 + 3 * probes queueLimit c.numAuxWorkers l.commit) with
      commit := put queueLimit c.numAuxWorkers l.commit } where
  commit := rfl
  ucvf _ _ := rfl
  rest := rfl
  total := by
    have := put_weight queueLimit c.numAuxWorkers l.commit
    simp only [Ledger.pay, Ledger.weight, Pi.zero_apply, sum_const_zero]
    push_cast
    linarith

theorem ucvf_one (c : Config) {res : ℕ} (hres : res < 12) (l : Ledger) :
    Puts c 0 (Pi.single res 1) 1206 l
      { l.pay (1206 + 3 * probes queueLimit c.width (l.ucvf (c.row res))) with
        ucvf := Function.update l.ucvf (c.row res)
          (put queueLimit c.width (l.ucvf (c.row res))) } where
  commit := rfl
  ucvf res' _ := by
    by_cases h : res' = res
    · rw [h, Pi.single_eq_same, Function.iterate_one]
      exact Function.update_self ..
    · rw [Pi.single_eq_of_ne h, Function.iterate_zero, id]
      exact Function.update_of_ne (fun hrow => h (Config.row_inj hrow)) ..
  rest := rfl
  total := by
    have hput := put_weight queueLimit c.width (l.ucvf (c.row res))
    have hsum : ∑ x ∈ range 12, (Pi.single res 1 : ℕ → ℕ) x = 1 := by
      rw [sum_pi_single', if_pos (mem_range.2 hres)]
    have hweight : ∑ x ∈ range 12, FirstFit.weight c.width
          (Function.update l.ucvf (c.row res) (put queueLimit c.width (l.ucvf (c.row res)))
            (c.row x)) -
        ∑ x ∈ range 12, FirstFit.weight c.width (l.ucvf (c.row x)) =
        FirstFit.weight c.width (put queueLimit c.width (l.ucvf (c.row res))) -
        FirstFit.weight c.width (l.ucvf (c.row res)) := by
      rw [← sum_sub_distrib, sum_eq_single res, Function.update_self]
      · intro x _ hx
        rw [Function.update_of_ne fun hrow => hx (Config.row_inj hrow), sub_self]
      · exact fun h => absurd (mem_range.2 hres) h
    rw [hsum]
    simp only [Ledger.pay, Ledger.weight]
    push_cast
    linarith

/-- A loop each of whose rounds puts packets. -/
theorem forN (body : ℕ → State → State) {n : ℕ → ℕ} {m : ℕ → ℕ → ℕ} {k : ℕ → ℕ} {r : ℕ}
    (h : ∀ i < r, ∀ st, Puts c (n i) (m i) (k i) st.ledger (body i st).ledger) (st : State) :
    Puts c (∑ i ∈ range r, n i) (∑ i ∈ range r, m i) (∑ i ∈ range r, k i) st.ledger
      (Loop.forN r body st).ledger :=
  forN_induct (fun (j : ℕ) (st' : State) => Puts c (∑ i ∈ range j, n i) (∑ i ∈ range j, m i)
    (∑ i ∈ range j, k i) st.ledger st'.ledger) (by simpa using Puts.refl c st.ledger)
    fun j hj st' hst' => by
      rw [sum_range_succ, sum_range_succ, sum_range_succ]
      exact hst'.trans (h j hj st')

/-- A loop all of whose rounds put the same packets. -/
theorem forLoop {body : ℕ → State → State} (start stop step : ℕ)
    (h : ∀ i st, Puts c n m k st.ledger (body i st).ledger) (st : State) :
    Puts c (rounds start stop step * n) (rounds start stop step • m) (rounds start stop step * k)
      st.ledger (Loop.forLoop start stop step body st).ledger := by
  have := Puts.forN (fun i => body (start + step * i)) (r := rounds start stop step)
    (fun i _ st => h (start + step * i) st) st
  simp only [sum_const, card_range, smul_eq_mul] at this
  exact this

end Puts

/-- The source of a packet that `forward_packet` sends. -/
theorem Config.forwardSource_eq (c : Config) {w i : ℕ} (hw : w < 12) (hi : i < 2 ^ 31) :
    c.forwardSource w i = c.row ((w + i) % 12) := by
  have haux := c.aux_lt
  have hunsigned : asUnsigned ((w : ℤ) + i) = ((w + i : ℕ) : ℤ) := by
    unfold asUnsigned
    omega
  rw [forwardSource, hunsigned, row, asInt, Int.bmod_eq_of_le (by omega) (by omega)]
  push_cast
  rfl

/-- What a packet costs that goes to one stage, without the probes. -/
def stageCost (isMyIter : ℤ) : ℕ := if isMyIter = 0 then 1206 else 1506

theorem forwardToStage_puts {w i : ℕ} (hw : w < 12) (hi : i < 2 ^ 31) (isMyIter : ℤ) (st : State) :
    Puts c (if isMyIter = 0 then 1 else 0)
      (if isMyIter = 0 then 0 else Pi.single ((w + i) % 12) 1) (stageCost isMyIter)
      st.ledger (forwardToStage c w isMyIter i st).ledger := by
  unfold forwardToStage stageCost
  split_ifs with hmine
  · rw [putCommit_ledger]
    exact Puts.commit_one c st.ledger
  · have hput := putUcvf_ledger (c.row ((w + i) % 12)) c.width st
    have hwidth : (c.width : ℤ) = c.numWorkers := c.numWorkers_eq.symm
    rw [hwidth] at hput
    simp only [c.forwardSource_eq hw hi, charge_ledger, hput]
    exact (Puts.ucvf_one c (Nat.mod_lt _ (by decide)) st.ledger).trans (Puts.pay c 300 _)

/-! ## Forwarding -/

/-- The number of the stages that a packet of `my_stage` goes to. -/
def Config.stagesAfter (c : Config) (myStage : ℤ) : ℕ :=
  c.numStages - (asUnsigned (myStage + 1)).toNat

/-- The number of the stages a packet goes to whose queues are in the row of `res`. -/
def Config.stagesOf (c : Config) (w : ℕ) (myStage : ℤ) (res : ℕ) : ℕ :=
  Nat.count (fun j => (w + ((asUnsigned (myStage + 1)).toNat + j)) % 12 = res)
    (c.stagesAfter myStage)

/-- What a packet costs, without the probes of the tables of tallies. -/
def Config.packetCost (c : Config) (myStage isMyIter : ℤ) : ℕ :=
  c.stagesAfter myStage * stageCost isMyIter + (1206 + 3 * c.numAuxWorkers)

/-- The number of packets of a call of `end_iter`. -/
def Config.numPackets (c : Config) : ℕ := (c.numGlobals + c.numHeaps + c.numStacks) * 1026

/-- The packets of `count` calls of `forward_packet`. -/
def Forwards (c : Config) (w : ℕ) (myStage isMyIter : ℤ) (count : ℕ) (st st' : State) : Prop :=
  Puts c (count * if isMyIter = 0 then c.stagesAfter myStage else 0)
    (fun res => count * if isMyIter = 0 then 0 else c.stagesOf w myStage res)
    (count * c.packetCost myStage isMyIter) st.ledger st'.ledger

theorem Forwards.trans {w n n' : ℕ} {myStage isMyIter : ℤ} {st st' st'' : State}
    (h : Forwards c w myStage isMyIter n st st') (h' : Forwards c w myStage isMyIter n' st' st'') :
    Forwards c w myStage isMyIter (n + n') st st'' := by
  have := Puts.trans h h'
  unfold Forwards
  simp only [Nat.add_mul]
  exact this

theorem Forwards.forLoop {w n : ℕ} {myStage isMyIter : ℤ} {body : ℕ → State → State}
    (start stop step : ℕ) (h : ∀ i st, Forwards c w myStage isMyIter n st (body i st))
    (st : State) :
    Forwards c w myStage isMyIter (rounds start stop step * n) st
      (Loop.forLoop start stop step body st) := by
  have := Puts.forLoop start stop step h st
  unfold Forwards
  simp only [Nat.mul_assoc]
  exact this

theorem forwardPacket_forwards {w : ℕ} (hw : w < 12) (shadowSize myStage isMyIter : ℤ)
    (st : State) : Forwards c w myStage isMyIter 1 st
      (forwardPacket c w shadowSize myStage isMyIter st) := by
  have hstages := c.heaps_lt
  have hloop := Puts.forN (r := c.stagesAfter myStage)
    (fun j => forwardToStage c w isMyIter ((asUnsigned (myStage + 1)).toNat + 1 * j))
    (fun j hj st => forwardToStage_puts (c := c) hw (by
      unfold Config.stagesAfter Config.numStages at hj
      omega) isMyIter st) st
  have htail := Puts.pay c (1206 + 3 * c.numAuxWorkers) (Loop.forN (c.stagesAfter myStage)
    (fun j => forwardToStage c w isMyIter ((asUnsigned (myStage + 1)).toNat + 1 * j)) st).ledger
  have hpacket := hloop.trans htail
  unfold Forwards forwardPacket Loop.forLoop
  rw [rounds_one, putQueue_ledger]
  convert hpacket using 1
  · split_ifs <;> simp
  · funext res
    split_ifs with hmine
    · simp
    · rw [Config.stagesOf, Nat.count_eq_card_filter_range, card_filter]
      simp [Pi.single_apply, eq_comm]
  · simp [Config.packetCost]
  · push_cast
    rfl

theorem forwardPair_forwards {w : ℕ} (hw : w < 12) (shadowSize myStage isMyIter : ℤ)
    (st : State) : Forwards c w myStage isMyIter 1026 st
      (forwardPair c w shadowSize myStage isMyIter st) := by
  have hone (size : ℤ) := forwardPacket_forwards (c := c) hw size myStage isMyIter
  have htwo (size : ℤ) (st : State) := (hone size st).trans (hone size _)
  have hrounds : rounds 0 pageSize 8 = 512 := rfl
  have := (htwo shadowSize st).trans
    (Forwards.forLoop 0 pageSize 8 (fun _ => htwo 8) _)
  rwa [hrounds] at this

theorem forwardPages_forwards {w : ℕ} (hw : w < 12) (myStage isMyIter : ℤ) (st : State) :
    Forwards c w myStage isMyIter c.numPackets st (forwardPages c w myStage isMyIter st) := by
  have hpair (size : ℤ) := forwardPair_forwards (c := c) hw size myStage isMyIter
  have hloop (n : ℕ) (sizes : State → ℕ → ℤ) (st : State) :=
    Forwards.forLoop 0 n 1 (fun i st => hpair (sizes st i) st) st
  have := ((hloop c.numGlobals State.shadowGlobals st).trans
    (hloop c.numHeaps State.shadowHeaps _)).trans (hloop c.numStacks State.shadowStacks _)
  simp only [rounds_one, Nat.sub_zero, ← Nat.add_mul] at this
  exact this

end SpecPriv.Simple
