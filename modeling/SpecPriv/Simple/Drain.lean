/-
  Draining a worker queue.

  The receive loop of `begin_iter` takes one or two packets in each round.  The
  tally modulo 4 says what the next packet is: at 0 a page, which is taken
  alone while `num_ro_pages` lasts and with its shadow afterwards; at 2 a pair;
  an allocation where it is odd.

  `Takes q n k cost` relates the states before and after `n` packets of `q` are
  taken.  `drainCost` is the closed form of the cost, and `receiveAll_drains`
  says that the loop ends, empties the queue, and costs that much.
-/
import Mathlib.Tactic.IntervalCases
import SpecPriv.Simple.Capacity

namespace SpecPriv.Simple

open Loop

variable {st st' st'' : State} {q : Tally}

/-- `n` packets of `q` were taken, `k` read-only pages were used up, and `cost`
    was charged. -/
structure Takes (q : Tally) (n k cost : ℕ) (st st' : State) : Prop where
  tally : st'.tally = Function.update st.tally q (st.tally q - n)
  numRoPages : st'.numRoPages = st.numRoPages - k
  prediction : st'.prediction = st.prediction
  isVer : st'.isVer = st.isVer
  total : st'.total = st.total + cost

namespace Takes

variable {n n' k k' cost cost' : ℕ}

theorem tally_self (h : Takes q n k cost st st') : st'.tally q = st.tally q - n := by
  rw [h.tally, Function.update_self]

theorem trans (h : Takes q n k cost st st') (h' : Takes q n' k' cost' st' st'') :
    Takes q (n + n') (k + k') (cost + cost') st st'' where
  tally := by
    rw [h'.tally, h.tally, Function.update_self, Function.update_idem]
    push_cast
    rw [sub_sub]
  numRoPages := by
    rw [h'.numRoPages, h.numRoPages]
    push_cast
    rw [sub_sub]
  prediction := h'.prediction.trans h.prediction
  isVer := h'.isVer.trans h.isVer
  total := by rw [h'.total, h.total, Nat.add_assoc]

theorem chargeAll (q : Tally) (cs : List ℕ) (st : State) :
    Takes q 0 0 cs.sum st (st.chargeAll cs) where
  tally := by simp
  numRoPages := by simp
  prediction := rfl
  isVer := rfl
  total := by simp

theorem charge (q : Tally) (n : ℕ) (st : State) : Takes q 0 0 n st (st.charge n) :=
  chargeAll q [n] st

theorem roPage (q : Tally) (st : State) :
    Takes q 0 1 0 st { st with numRoPages := st.numRoPages - 1 } where
  tally := by simp
  numRoPages := by simp
  prediction := rfl
  isVer := rfl
  total := rfl

theorem consume (q : Tally) (st : State) (h : st.tally q ≠ 0) :
    Takes q 1 0 6 st (queueConsume q st).2 := by
  rcases queueConsume_cases q st with ⟨h0, -⟩ | ⟨-, type, -, heq⟩
  · exact absurd h0 h
  · rw [heq]
    constructor <;> simp

end Takes

/-- The type of the packet that is taken from a queue with `n` packets. -/
theorem queueConsume_type {n : ℕ} (h : st.tally q = n) (hn : 0 < n) : (queueConsume q st).1 =
    if n % 4 = 0 then .super else if n % 2 = 0 then .normal else .alloc := by
  have hne : (n : ℤ) ≠ 0 := by omega
  have h4 : Int.tmod n 4 = 0 ↔ n % 4 = 0 := by
    rw [Int.tmod_eq_emod_of_nonneg (Int.natCast_nonneg n)]
    omega
  have h2 : Int.tmod n 2 = 0 ↔ n % 2 = 0 := by
    rw [Int.tmod_eq_emod_of_nonneg (Int.natCast_nonneg n)]
    omega
  unfold queueConsume
  simp only [State.charge_tally, h, if_neg hne, h4, h2]
  split_ifs <;> rfl

/-! ## One round -/

/-- What the allocations of one packet cost. -/
def allocCost (isVer : ℤ) : ℕ := 256 * if isVer ≠ 0 then 200 else 400

section Round

variable {n r : ℕ} (wid : ℤ)

theorem receivePacket_roPage (hn : st.tally q = n) (hpos : 0 < n) (hr : st.numRoPages = r)
    (h4 : n % 4 = 0) (hrpos : 0 < r) : (receivePacket q wid st).1 = false ∧
      Takes q 1 1 7 st (receivePacket q wid st).2 := by
  have hone := Takes.consume q st (by omega)
  have hro : (queueConsume q st).2.numRoPages > 0 := by
    rw [hone.numRoPages, hr]
    omega
  unfold receivePacket
  simp only [queueConsume_type hn hpos, if_pos h4, if_pos hro]
  exact ⟨trivial, (hone.trans (Takes.roPage q _)).trans (Takes.charge q 1 _)⟩

theorem receivePacket_page (hn : st.tally q = n) (hpos : 0 < n) (hr : st.numRoPages = 0)
    (h4 : n % 4 = 0) : (receivePacket q wid st).1 = false ∧
      Takes q 2 0 14348 st (receivePacket q wid st).2 := by
  have hone := Takes.consume q st (by omega)
  have htwo := hone.trans (Takes.consume q _ (by rw [hone.tally_self]; omega))
  have hro : ¬ (queueConsume q st).2.numRoPages > 0 := by
    rw [hone.numRoPages, hr]
    omega
  have hpage : (List.replicate (rounds 0 pageSize 16) 56).sum = 14336 := by
    rw [List.sum_replicate, show rounds 0 pageSize 16 = 256 from rfl]
    rfl
  unfold receivePacket
  simp only [queueConsume_type hn hpos, if_pos h4, if_neg hro, updatePage_eq]
  have := htwo.trans (Takes.chargeAll q (List.replicate (rounds 0 pageSize 16) 56) _)
  rw [hpage] at this
  exact ⟨trivial, this⟩

theorem receivePacket_pair (hn : st.tally q = n) (h4 : n % 4 = 2) :
    (receivePacket q wid st).1 = false ∧ Takes q 2 0 14 st (receivePacket q wid st).2 := by
  have hone := Takes.consume q st (by omega)
  have htwo := hone.trans (Takes.consume q _ (by rw [hone.tally_self]; omega))
  unfold receivePacket
  simp only [queueConsume_type hn (by omega), if_neg (by omega : ¬ n % 4 = 0),
    if_pos (by omega : n % 2 = 0)]
  exact ⟨trivial, (htwo.trans (Takes.charge q 1 _)).trans (Takes.charge q 1 _)⟩

theorem receivePacket_alloc (hn : st.tally q = n) (hodd : n % 2 = 1) :
    (receivePacket q wid st).1 = false ∧
      Takes q 1 0 (6 + allocCost (st.isVer wid)) st (receivePacket q wid st).2 := by
  have hone := Takes.consume q st (by omega)
  unfold receivePacket
  simp only [queueConsume_type hn (by omega), if_neg (by omega : ¬ n % 4 = 0),
    if_neg (by omega : ¬ n % 2 = 0), allocLoop_eq, hone.isVer]
  have := hone.trans (Takes.chargeAll q (List.replicate (pageSize / sizeofVerMallocInstance)
    (if st.isVer wid ≠ 0 then 200 else 400)) _)
  rw [List.sum_replicate, show pageSize / sizeofVerMallocInstance = 256 from rfl] at this
  exact ⟨trivial, this⟩

theorem receivePacket_done (hn : st.tally q = 0) :
    (receivePacket q wid st).1 = true ∧ (receivePacket q wid st).2 = st.charge 6 := by
  unfold receivePacket queueConsume
  simp [hn]

end Round

/-! ## The loop -/

/-- What draining a queue of `n` packets costs, with `r` read-only pages left,
    and `v` for the allocations of a packet. -/
def drainCost (n r v : ℕ) : ℕ :=
  6 + n % 2 * (6 + v) + 14 * ((n - n % 2 + 2) / 4) + min r (n / 4) * (13 + v) +
    (n / 4 - min r (n / 4)) * 14348

theorem drainCost_roPage (m r v : ℕ) :
    drainCost (4 * (m + 1)) (r + 1) v = 7 + drainCost (4 * m + 3) r v := by
  have h1 : 4 * (m + 1) % 2 = 0 := by omega
  have h2 : (4 * m + 3) % 2 = 1 := by omega
  have h3 : 4 * (m + 1) / 4 = m + 1 := by omega
  have h4 : (4 * m + 3) / 4 = m := by omega
  rw [drainCost, drainCost, h1, h2, h3, h4, Nat.add_min_add_right, Nat.add_sub_add_right,
    Nat.add_mul (min r m) 1]
  omega

theorem drainCost_page (m v : ℕ) :
    drainCost (4 * (m + 1)) 0 v = 14348 + drainCost (4 * m + 2) 0 v := by
  have h1 : 4 * (m + 1) % 2 = 0 := by omega
  have h2 : (4 * m + 2) % 2 = 0 := by omega
  have h3 : 4 * (m + 1) / 4 = m + 1 := by omega
  have h4 : (4 * m + 2) / 4 = m := by omega
  rw [drainCost, drainCost, h1, h2, h3, h4, Nat.zero_min, Nat.zero_min]
  omega

theorem drainCost_pair (m r v : ℕ) : drainCost (4 * m + 2) r v = 14 + drainCost (4 * m) r v := by
  have h1 : (4 * m + 2) % 2 = 0 := by omega
  have h2 : 4 * m % 2 = 0 := by omega
  have h3 : (4 * m + 2) / 4 = m := by omega
  have h4 : 4 * m / 4 = m := by omega
  rw [drainCost, drainCost, h1, h2, h3, h4]
  omega

theorem drainCost_alloc {n : ℕ} (hn : n % 2 = 0) (r v : ℕ) :
    drainCost (n + 1) r v = 6 + v + drainCost n r v := by
  have h1 : (n + 1) % 2 = 1 := by omega
  have h2 : (n + 1) / 4 = n / 4 := by omega
  rw [drainCost, drainCost, h1, hn, h2]
  omega

/-- A queue of `n` packets is drained, from all states and with all fuel above `n`. -/
def DrainsAt (q : Tally) (wid : ℤ) (n : ℕ) : Prop :=
  ∀ (r fuel : ℕ) (st : State), n < fuel → st.tally q = n → st.numRoPages = r →
    ∃ st', receiveAll q wid fuel st = some st' ∧
      Takes q n (min r (n / 4)) (drainCost n r (allocCost (st.isVer wid))) st st'

/-- A round that takes `n` of the packets and `k` of the pages, before a drain
    of the other `n'` packets, with `r` pages left. -/
theorem DrainsAt.round {wid : ℤ} {fuel n n' k r cost : ℕ} {st : State} (hrest : DrainsAt q wid n')
    (h : (receivePacket q wid st).1 = false ∧ Takes q n k cost st (receivePacket q wid st).2)
    (hn : st.tally q = (n + n' : ℕ)) (hr : st.numRoPages = (k + r : ℕ)) (hfuel : n' < fuel) :
    ∃ st', receiveAll q wid (fuel + 1) st = some st' ∧ Takes q (n + n') (k + min r (n' / 4))
      (cost + drainCost n' r (allocCost (st.isVer wid))) st st' := by
  have hn' : (receivePacket q wid st).2.tally q = n' := by
    rw [h.2.tally_self, hn]
    omega
  have hr' : (receivePacket q wid st).2.numRoPages = r := by
    rw [h.2.numRoPages, hr]
    omega
  obtain ⟨st', hst', ht⟩ := hrest r fuel _ hfuel hn' hr'
  rw [h.2.isVer] at ht
  refine ⟨st', ?_, h.2.trans ht⟩
  rw [receiveAll, if_neg (by rw [h.1]; exact Bool.false_ne_true)]
  exact hst'

/-- One round is enough for an empty queue. -/
theorem receiveAll_empty (wid : ℤ) (fuel : ℕ) (h : st.tally q = 0) :
    receiveAll q wid (fuel + 1) st = some (st.charge 6) := by
  obtain ⟨hlast, hst⟩ := receivePacket_done wid h
  rw [receiveAll, if_pos hlast, hst]

section Drains

variable {q : Tally} {wid : ℤ}

theorem drainsAt_zero : DrainsAt q wid 0 := by
  intro r fuel st hfuel hn _
  obtain ⟨fuel, rfl⟩ := Nat.exists_eq_add_one.2 (Nat.zero_lt_of_lt hfuel)
  refine ⟨st.charge 6, receiveAll_empty wid fuel hn, ?_⟩
  simpa [drainCost] using Takes.charge q 6 st

theorem drainsAt_alloc {n : ℕ} (heven : n % 2 = 0) (h : DrainsAt q wid n) :
    DrainsAt q wid (n + 1) := by
  intro r fuel st hfuel hn hr
  obtain ⟨fuel, rfl⟩ := Nat.exists_eq_add_one.2 (Nat.zero_lt_of_lt hfuel)
  have hround := receivePacket_alloc wid hn (by omega)
  have hdrain := h.round hround (by omega) (show st.numRoPages = (0 + r : ℕ) by omega)
    (show n < fuel by omega)
  rw [drainCost_alloc heven, show (n + 1) / 4 = n / 4 by omega, Nat.add_comm n 1]
  rwa [Nat.zero_add] at hdrain

theorem drainsAt_pair {m : ℕ} (h : DrainsAt q wid (4 * m)) : DrainsAt q wid (4 * m + 2) := by
  intro r fuel st hfuel hn hr
  obtain ⟨fuel, rfl⟩ := Nat.exists_eq_add_one.2 (Nat.zero_lt_of_lt hfuel)
  have hround := receivePacket_pair wid hn (by omega)
  have hdrain := h.round hround (by omega) (show st.numRoPages = (0 + r : ℕ) by omega)
    (show 4 * m < fuel by omega)
  rw [drainCost_pair, show (4 * m + 2) / 4 = 4 * m / 4 by omega, Nat.add_comm (4 * m) 2]
  rwa [Nat.zero_add] at hdrain

/-- A page is taken alone or with its shadow, and the tally that remains says
    what comes next. -/
theorem drainsAt_super {m : ℕ} (halone : DrainsAt q wid (4 * m + 3))
    (hshadow : DrainsAt q wid (4 * m + 2)) : DrainsAt q wid (4 * (m + 1)) := by
  intro r fuel st hfuel hn hr
  obtain ⟨fuel, rfl⟩ := Nat.exists_eq_add_one.2 (Nat.zero_lt_of_lt hfuel)
  cases r with
  | zero =>
    have hround := receivePacket_page wid hn (by omega) (by rw [hr]; rfl) (by omega)
    have hdrain := hshadow.round hround (by omega) (show st.numRoPages = (0 + 0 : ℕ) by omega)
      (show 4 * m + 2 < fuel by omega)
    rw [drainCost_page, Nat.zero_min]
    rwa [Nat.zero_min, show 2 + (4 * m + 2) = 4 * (m + 1) by omega] at hdrain
  | succ r =>
    have hround := receivePacket_roPage wid hn (by omega) hr (by omega) (by omega)
    have hdrain := halone.round hround (by omega) (show st.numRoPages = (1 + r : ℕ) by omega)
      (show 4 * m + 3 < fuel by omega)
    rw [drainCost_roPage, show min (r + 1) (4 * (m + 1) / 4) = 1 + min r ((4 * m + 3) / 4) by omega]
    rwa [show 1 + (4 * m + 3) = 4 * (m + 1) by omega] at hdrain

theorem drainsAt_four : ∀ m, DrainsAt q wid (4 * m)
  | 0 => drainsAt_zero
  | m + 1 =>
    have hpair := drainsAt_pair (drainsAt_four m)
    drainsAt_super (drainsAt_alloc (by omega) hpair) hpair

/-- **Draining a queue**: the receive loop ends, takes all the packets, and
    costs `drainCost`. -/
theorem receiveAll_drains (n : ℕ) : DrainsAt q wid n := by
  obtain ⟨m, j, hj, rfl⟩ : ∃ m j, j < 4 ∧ n = 4 * m + j :=
    ⟨n / 4, n % 4, Nat.mod_lt _ (by decide), (Nat.div_add_mod n 4).symm⟩
  have hfour : DrainsAt q wid (4 * m) := drainsAt_four m
  interval_cases j
  · exact hfour
  · exact drainsAt_alloc (by omega) hfour
  · exact drainsAt_pair hfour
  · exact drainsAt_alloc (by omega) (drainsAt_pair hfour)

end Drains

/-- There is nothing to wait for. -/
theorem busyWait_empty {wid : ℤ} {fuel : ℕ} (hfuel : 0 < fuel) (h : st.tally (.reverse wid) = 0) :
    busyWait wid fuel st = some st := by
  obtain ⟨fuel, rfl⟩ := Nat.exists_eq_add_one.2 (Nat.zero_lt_of_lt hfuel)
  rw [busyWait, if_neg (by omega)]

end SpecPriv.Simple
