/-
  The loop of `busy_wait`.

  A round takes one packet of the reverse commit queue, and pays for one
  allocation: 200 when the packet completes a pair, which is so when the tally
  is 2 modulo 4, and 400 otherwise.  `waitCost` adds this up over a queue.

  `busyWait_drains`: from every tally the loop ends with the queue empty, leaves
  the other queues, costs the closed form, and never finds the queue empty.
-/
import SpecPriv.Simple.Drain

namespace SpecPriv.Simple

variable {wid : ℤ} {n fuel : ℕ} {st : State}

/-- The body of the loop. -/
def waitRound (wid : ℤ) (st : State) : State :=
  let r := queueConsume (.reverse wid) st
  if r.1.code % 2 = 0 then updateVerMalloc r.2 else updateVerSeparationMalloc r.2

theorem busyWait_succ (wid : ℤ) (fuel : ℕ) (st : State) : busyWait wid (fuel + 1) st =
    if st.tally (.reverse wid) > 0 then busyWait wid fuel (waitRound wid st) else some st := rfl

/-- What `queue_consume` answers in the rounds of the loop. -/
def waitAnswers (wid : ℤ) : ℕ → State → List PacketType
  | 0, _ => []
  | fuel + 1, st =>
    if st.tally (.reverse wid) > 0 then
      (queueConsume (.reverse wid) st).1 :: waitAnswers wid fuel (waitRound wid st)
    else []

/-- What a round costs that finds `n` packets. -/
def waitRoundCost (n : ℕ) : ℕ := 6 + if n % 4 = 2 then 200 else 400

/-- What the loop costs on a queue of `n` packets. -/
def waitCost (n : ℕ) : ℕ := 406 * n - 200 * ((n + 2) / 4)

theorem waitCost_succ (n : ℕ) : waitCost (n + 1) = waitRoundCost (n + 1) + waitCost n := by
  have hle : (n + 2) / 4 ≤ n := by omega
  unfold waitCost waitRoundCost
  split_ifs with htwo
  · have hdiv : (n + 1 + 2) / 4 = (n + 2) / 4 + 1 := by omega
    omega
  · have hdiv : (n + 1 + 2) / 4 = (n + 2) / 4 := by omega
    omega

/-- One round: the code of the answer is even for pairs alone. -/
theorem waitRound_takes (hn : st.tally (.reverse wid) = n) (hpos : 0 < n) :
    Takes (.reverse wid) 1 0 (waitRoundCost n) st (waitRound wid st) := by
  have hone := Takes.consume (.reverse wid) st (by omega)
  have htype := queueConsume_type hn hpos
  unfold waitRound waitRoundCost
  dsimp only
  rw [htype]
  by_cases h4 : n % 4 = 0
  · rw [if_pos h4, if_neg (by omega : ¬ n % 4 = 2)]
    exact hone.trans (Takes.charge _ 400 _)
  · rw [if_neg h4]
    by_cases h2 : n % 2 = 0
    · rw [if_pos h2, if_pos (by omega : n % 4 = 2)]
      exact hone.trans (Takes.charge _ 200 _)
    · rw [if_neg h2, if_neg (by omega : ¬ n % 4 = 2)]
      exact hone.trans (Takes.charge _ 400 _)

theorem waitRound_tally (hn : st.tally (.reverse wid) = (n + 1 : ℕ)) :
    (waitRound wid st).tally (.reverse wid) = n := by
  rw [(waitRound_takes hn n.succ_pos).tally_self, hn]
  omega

/-- The loop takes all the packets. -/
theorem busyWait_takes (hn : st.tally (.reverse wid) = n) (hfuel : n < fuel) :
    ∃ st', busyWait wid fuel st = some st' ∧ Takes (.reverse wid) n 0 (waitCost n) st st' := by
  induction n generalizing fuel st with
  | zero => exact ⟨st, busyWait_empty hfuel hn, Takes.chargeAll _ [] st⟩
  | succ n ih =>
    obtain ⟨fuel, rfl⟩ := Nat.exists_eq_add_one.2 (Nat.zero_lt_of_lt hfuel)
    obtain ⟨st', hst', ht⟩ := ih (waitRound_tally hn) (show n < fuel by omega)
    refine ⟨st', ?_, ?_⟩
    · rw [busyWait_succ, if_pos (by omega)]
      exact hst'
    · have htakes := (waitRound_takes hn n.succ_pos).trans ht
      rwa [← waitCost_succ, Nat.add_comm 1 n] at htakes

/-- There is an answer for each packet, and none is `DONE`. -/
theorem waitAnswers_spec (hn : st.tally (.reverse wid) = n) (hfuel : n < fuel) :
    (waitAnswers wid fuel st).length = n ∧ ∀ answer ∈ waitAnswers wid fuel st, answer ≠ .done := by
  induction n generalizing fuel st with
  | zero =>
    obtain ⟨fuel, rfl⟩ := Nat.exists_eq_add_one.2 (Nat.zero_lt_of_lt hfuel)
    rw [waitAnswers, if_neg (by omega)]
    simp
  | succ n ih =>
    obtain ⟨fuel, rfl⟩ := Nat.exists_eq_add_one.2 (Nat.zero_lt_of_lt hfuel)
    obtain ⟨hlen, hall⟩ := ih (waitRound_tally hn) (show n < fuel by omega)
    rw [waitAnswers, if_pos (by omega)]
    refine ⟨by rw [List.length_cons, hlen], ?_⟩
    intro answer hmem
    rcases List.mem_cons.1 hmem with rfl | hmem
    · rcases queueConsume_cases (.reverse wid) st with ⟨h0, -⟩ | ⟨-, type, htype, heq⟩
      · omega
      · rwa [heq]
    · exact hall answer hmem

/-- **Draining the reverse commit queue**: `busy_wait` ends, empties the queue
    of the worker, and costs the closed form; `queue_consume` never answers
    `DONE`. -/
theorem busyWait_drains (wid : ℤ) (n fuel : ℕ) (st : State)
    (hn : st.tally (.reverse wid) = n) (hfuel : n < fuel) :
    (∃ st', busyWait wid fuel st = some st' ∧
      st'.tally (.reverse wid) = 0 ∧
      (∀ cell, cell ≠ .reverse wid → st'.tally cell = st.tally cell) ∧
      (st'.total : ℤ) = st.total + (406 * n - 200 * ((n + 2) / 4))) ∧
    (waitAnswers wid fuel st).length = n ∧
    ∀ answer ∈ waitAnswers wid fuel st, answer ≠ .done := by
  obtain ⟨st', hst', ht⟩ := busyWait_takes hn hfuel
  refine ⟨⟨st', hst', ?_, ?_, ?_⟩, waitAnswers_spec hn hfuel⟩
  · rw [ht.tally_self, hn, sub_self]
  · intro cell hcell
    rw [ht.tally, Function.update_of_ne hcell]
  · have hle : (n + 2) / 4 ≤ n := by omega
    rw [ht.total, waitCost]
    omega

/-- Six packets. -/
theorem busyWait_drains_six :
    let st := (State.init .default).store (.reverse 3) 6
    ∃ st', busyWait 3 7 st = some st' ∧ st'.tally (.reverse 3) = 0 ∧ (st'.total : ℤ) = 2036 := by
  intro st
  obtain ⟨⟨st', hst', htally, -, htotal⟩, -⟩ := busyWait_drains 3 6 7 st rfl (by decide)
  have hst : st.total = 0 := rfl
  refine ⟨st', hst', htally, ?_⟩
  rw [htotal, hst]
  decide

end SpecPriv.Simple
