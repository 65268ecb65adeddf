/-
  What forwarding a page costs, from every state.

  A search of a row of `n` queues takes at most `n` probes, however full the
  queues are and whatever rows it meets, so each packet is paid within bounds
  (`Meter.Within`) that depend on no tally.  `forwardPair_within` carries them
  through the loops, for every stage and every worker number.

  `forwardPair_cost` is the case of the numbers of workers in the source.
-/
import SpecPriv.Lib.Meter
import SpecPriv.Simple.Ledger

namespace SpecPriv.Simple

open Meter FirstFit

variable {c : Config}

/-- A search of a row, and the produce after it. -/
theorem putRow_within {row : ℕ → Tally} (hrow : Function.Injective row) (size : ℕ) :
    Within State.total 1206 (1206 + 3 * size) fun st =>
      let r := getAvailable (fun idx => st.tally (row idx) ≥ queueLimit) (row 0) size st
      queueProduce (row r.1) r.2 := by
  intro st
  obtain ⟨-, -, -, -, -, htotal⟩ := put_row hrow size st
  have hprobes : probes queueLimit size (fun i => st.tally (row i)) ≤ size := probes_le
  dsimp only at htotal ⊢
  omega

theorem charge_within (n : ℕ) : Within State.total n n (State.charge n) := by
  intro st
  rw [State.charge_total]
  omega

/-- What a packet costs at most that goes to one stage. -/
def Config.maxStageCost (c : Config) (isMyIter : ℤ) : ℕ :=
  if isMyIter = 0 then 1206 + 3 * c.numAuxWorkers else 1206 + 3 * c.width + 300

theorem forwardToStage_within (wid isMyIter : ℤ) (i : ℕ) :
    Within State.total (stageCost isMyIter) (c.maxStageCost isMyIter)
      (forwardToStage c wid isMyIter i) := by
  unfold stageCost Config.maxStageCost forwardToStage
  split_ifs with hmine
  · have hrow : Function.Injective fun idx : ℕ => Tally.commit idx := by
      intro i j h
      simpa using h
    exact putRow_within hrow c.numAuxWorkers
  · have hrow : Function.Injective fun idx : ℕ => Tally.ucvf (c.forwardSource wid i) idx := by
      intro i j h
      simpa using h
    rw [c.numWorkers_eq]
    exact (putRow_within hrow c.width).comp (charge_within 300)

/-- The tail of `forward_packet` finds no row, and pays for all the probes. -/
theorem forwardTail_within (wid : ℤ) :
    Within State.total (1206 + 3 * c.numAuxWorkers) (1206 + 3 * c.numAuxWorkers) fun st =>
      let r := getAvailablePacket c wid c.numAuxWorkers st
      queueProduce (.queue wid r.1) r.2 := by
  intro st
  have htotal := congrArg Ledger.total (putQueue_ledger (c := c) wid st)
  simp only [State.ledger, Ledger.pay] at htotal ⊢
  omega

theorem forwardPacket_within (wid shadowSize myStage isMyIter : ℤ) :
    Within State.total
      (c.stagesAfter myStage * stageCost isMyIter + (1206 + 3 * c.numAuxWorkers))
      (c.stagesAfter myStage * c.maxStageCost isMyIter + (1206 + 3 * c.numAuxWorkers))
      (forwardPacket c wid shadowSize myStage isMyIter) := by
  have hloop := Within.forLoop (asUnsigned (myStage + 1)).toNat c.numStages 1
    (forwardToStage_within (c := c) wid isMyIter)
  rw [Loop.rounds_one] at hloop
  exact hloop.comp (forwardTail_within wid)

/-- **Forwarding a pair**: each of its packets is paid within the bounds. -/
theorem forwardPair_within (wid shadowSize myStage isMyIter : ℤ) :
    Within State.total
      (1026 * (c.stagesAfter myStage * stageCost isMyIter + (1206 + 3 * c.numAuxWorkers)))
      (1026 * (c.stagesAfter myStage * c.maxStageCost isMyIter + (1206 + 3 * c.numAuxWorkers)))
      (forwardPair c wid shadowSize myStage isMyIter) := by
  have hone (size : ℤ) := forwardPacket_within (c := c) wid size myStage isMyIter
  have htwo (size : ℤ) := (hone size).comp (hone size)
  have hrounds : Loop.rounds 0 pageSize 8 = 512 := rfl
  have hpair := (htwo shadowSize).comp (Within.forLoop 0 pageSize 8 fun _ => htwo 8)
  have hcount (n : ℕ) : n + n + 512 * (n + n) = 1026 * n := by ring
  rw [hrounds, hcount, hcount] at hpair
  exact hpair

/-- **What forwarding a page costs**, with two auxiliary workers: in every state,
    for every worker number and every stage. -/
theorem forwardPair_cost (c : Config) (haux : c.numAuxWorkers = 2)
    (wid shadowSize s isMyIter : ℤ) (hs : 0 ≤ s) (hS : s < c.numStages) (a b : ℤ)
    (hab : (a, b) = if isMyIter = 0 then (1206, 1212) else (1506, 1536)) (st : State) :
    st.total + 1026 * ((c.numStages - 1 - s) * a + 1206) ≤
      ((forwardPair c wid shadowSize s isMyIter st).total : ℤ) ∧
    ((forwardPair c wid shadowSize s isMyIter st).total : ℤ) ≤
      st.total + 1026 * ((c.numStages - 1 - s) * b + 1212) := by
  have hheaps := c.heaps_lt
  obtain ⟨lo, hi⟩ := forwardPair_within (c := c) wid shadowSize s isMyIter st
  have hstages : ((c.stagesAfter s : ℕ) : ℤ) = c.numStages - 1 - s := by
    unfold Config.stagesAfter asUnsigned Config.numStages at *
    omega
  have hwidth : c.width = 10 := by rw [Config.width, haux]
  have hcosts : (stageCost isMyIter : ℤ) = a ∧ (c.maxStageCost isMyIter : ℤ) = b := by
    unfold stageCost Config.maxStageCost
    rw [haux, hwidth]
    split_ifs at hab ⊢ <;> cases hab <;> exact ⟨rfl, rfl⟩
  rw [haux] at lo hi
  zify at lo hi
  rw [hstages, hcosts.1] at lo
  rw [hstages, hcosts.2] at hi
  constructor <;> linarith

/-- A page of the first stage, in an iteration of another worker, as the
    program starts. -/
theorem forwardPair_cost_default :
    let st := State.init .default
    1026 * (19 * 1206 + 1206) ≤ ((forwardPair .default 0 16 0 0 st).total : ℤ) ∧
      ((forwardPair .default 0 16 0 0 st).total : ℤ) ≤ 1026 * (19 * 1212 + 1212) := by
  intro st
  obtain ⟨lo, hi⟩ := forwardPair_cost .default rfl 0 16 0 0 le_rfl (by decide) 1206 1212 rfl st
  have hstages : (Config.default.numStages : ℤ) - 1 - 0 = 19 := rfl
  have htotal : st.total = 0 := rfl
  rw [hstages, htotal, Nat.cast_zero, zero_add] at lo hi
  exact ⟨lo, hi⟩

end SpecPriv.Simple
