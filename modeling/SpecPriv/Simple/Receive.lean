/-
  The receive loop for one source.

  A round of the loop takes a second packet after the packet of a pair, and
  after a page that is not read-only.  `secondConsume` is the state in which
  it does, and `secondTallies` are the tallies that the second consumes of a
  run find.

  `receiveSource_drains`: from every tally and every number of read-only pages
  the loop ends with the queue empty, costs the closed form, and every second
  consume finds a packet.
-/
import SpecPriv.Simple.Drain

namespace SpecPriv.Simple

variable {q : Tally} {wid : ℤ} {st st₁ : State}

/-- The state in which a round consumes for the second time, if it does. -/
def secondConsume (queue : Tally) (st : State) : Option State :=
  let r := queueConsume queue st
  match r.1 with
  | .normal => some r.2
  | .super => if r.2.numRoPages > 0 then none else some r.2
  | .done => none
  | .alloc => none

/-- A round that consumes for the second time only charges after that. -/
theorem receivePacket_of_secondConsume (wid : ℤ) (h : secondConsume q st = some st₁) :
    ∃ cs, receivePacket q wid st = (false, (queueConsume q st₁).2.chargeAll cs) := by
  unfold secondConsume at h
  unfold receivePacket
  dsimp only at h ⊢
  generalize queueConsume q st = r at h ⊢
  obtain ⟨type, st'⟩ := r
  cases type with
  | normal =>
    obtain rfl : st' = st₁ := Option.some.inj h
    exact ⟨[1, 1], rfl⟩
  | super =>
    dsimp only at h ⊢
    split_ifs at h ⊢ with hro
    obtain rfl : st' = st₁ := Option.some.inj h
    exact ⟨_, by rw [updatePage_eq]⟩
  | done => cases h
  | alloc => cases h

/-- Any other round consumes once. -/
theorem receivePacket_of_no_secondConsume (wid : ℤ) (h : secondConsume q st = none) :
    (receivePacket q wid st).2.tally = (queueConsume q st).2.tally := by
  unfold secondConsume at h
  unfold receivePacket
  dsimp only at h ⊢
  generalize queueConsume q st = r at h ⊢
  obtain ⟨type, st'⟩ := r
  cases type with
  | normal => cases h
  | super =>
    dsimp only at h ⊢
    split_ifs at h ⊢
    rfl
  | done => rfl
  | alloc =>
    dsimp only
    rw [allocLoop_eq, State.chargeAll_tally]

/-- The tallies that the second consumes of the receive loop find. -/
def secondTallies (queue : Tally) (wid : ℤ) : ℕ → State → List ℤ
  | 0, _ => []
  | fuel + 1, st =>
    let r := receivePacket queue wid st
    ((secondConsume queue st).map fun st₁ => st₁.tally queue).toList ++
      if r.1 then [] else secondTallies queue wid fuel r.2

/-- A second consume finds a packet: the first one was of an even number. -/
theorem tally_pos_of_secondConsume (hn : 0 ≤ st.tally q) (h : secondConsume q st = some st₁) :
    0 < st₁.tally q := by
  obtain ⟨n, hn⟩ := Int.eq_ofNat_of_zero_le hn
  have hpos : 0 < n := by
    refine Nat.pos_of_ne_zero ?_
    rintro rfl
    rcases queueConsume_cases q st with ⟨-, hdone⟩ | ⟨h0, -⟩
    · unfold secondConsume at h
      rw [hdone] at h
      cases h
    · exact h0 hn
  have hone := Takes.consume q st (by omega)
  have htype := queueConsume_type hn hpos
  have hst₁ : n % 2 = 0 ∧ st₁ = (queueConsume q st).2 := by
    unfold secondConsume at h
    dsimp only at h
    rw [htype] at h
    by_cases h4 : n % 4 = 0
    · rw [if_pos h4] at h
      dsimp only at h
      split_ifs at h
      exact ⟨by omega, (Option.some.inj h).symm⟩
    · rw [if_neg h4] at h
      by_cases h2 : n % 2 = 0
      · rw [if_pos h2] at h
        exact ⟨h2, (Option.some.inj h).symm⟩
      · rw [if_neg h2] at h
        cases h
  rw [hst₁.2, hone.tally_self, hn]
  omega

/-- A round keeps the tally and the number of read-only pages non-negative. -/
theorem receivePacket_nonneg (wid : ℤ) (hn : 0 ≤ st.tally q) (hr : 0 ≤ st.numRoPages) :
    0 ≤ (receivePacket q wid st).2.tally q ∧ 0 ≤ (receivePacket q wid st).2.numRoPages := by
  obtain ⟨n, hn⟩ := Int.eq_ofNat_of_zero_le hn
  obtain ⟨r, hr⟩ := Int.eq_ofNat_of_zero_le hr
  have hkeeps {m k cost : ℕ} (hm : m ≤ n) (hk : k ≤ r)
      (h : Takes q m k cost st (receivePacket q wid st).2) :
      0 ≤ (receivePacket q wid st).2.tally q ∧ 0 ≤ (receivePacket q wid st).2.numRoPages := by
    rw [h.tally_self, h.numRoPages, hn, hr]
    omega
  obtain hn0 | hodd | hpair | hpage : n = 0 ∨ n % 2 = 1 ∨ n % 4 = 2 ∨ 0 < n ∧ n % 4 = 0 := by
    omega
  · rw [(receivePacket_done wid (by omega)).2]
    simp [hn, hr]
  · exact hkeeps (by omega) (by omega) (receivePacket_alloc wid hn hodd).2
  · exact hkeeps (by omega) (by omega) (receivePacket_pair wid hn hpair).2
  · rcases Nat.eq_zero_or_pos r with rfl | hrpos
    · exact hkeeps (by omega) (by omega) (receivePacket_page wid hn hpage.1 hr hpage.2).2
    · exact hkeeps (by omega) (by omega) (receivePacket_roPage wid hn hpage.1 hr hpage.2 hrpos).2

/-- **Pairs are complete**: every second consume of a run finds a packet. -/
theorem secondTallies_pos (wid : ℤ) (fuel : ℕ) (hn : 0 ≤ st.tally q) (hr : 0 ≤ st.numRoPages) :
    ∀ t ∈ secondTallies q wid fuel st, 0 < t := by
  induction fuel generalizing st with
  | zero =>
    intro t ht
    cases ht
  | succ fuel ih =>
    intro t ht
    obtain ⟨hn', hr'⟩ := receivePacket_nonneg wid hn hr
    rcases List.mem_append.1 ht with hnow | hrest
    · obtain ⟨st₁, hst₁, rfl⟩ := Option.map_eq_some_iff.1 (Option.mem_toList.1 hnow)
      exact tally_pos_of_secondConsume hn hst₁
    · split_ifs at hrest
      · cases hrest
      · exact ih hn' hr' t hrest

/-- **The receive loop for one source**: it ends, empties the queue, takes the
    read-only pages it needs, completes every pair, and costs the closed form. -/
theorem receiveSource_drains (source wid : ℤ) (n r v fuel : ℕ) (st : State)
    (hn : st.tally (.ucvf source wid) = n) (hr : st.numRoPages = r)
    (hv : v = if st.isVer wid ≠ 0 then 256 * 200 else 256 * 400) (hfuel : n < fuel) :
    (∃ st', receiveAll (.ucvf source wid) wid fuel st = some st' ∧
      st'.tally (.ucvf source wid) = 0 ∧
      (∀ cell, cell ≠ .ucvf source wid → st'.tally cell = st.tally cell) ∧
      st'.numRoPages = r - (min r (n / 4) : ℕ) ∧
      st'.total = st.total + (6 + n % 2 * (6 + v) + 14 * ((n - n % 2 + 2) / 4) +
        min r (n / 4) * (13 + v) + (n / 4 - min r (n / 4)) * 14348)) ∧
    ∀ t ∈ secondTallies (.ucvf source wid) wid fuel st, 0 < t := by
  have hcost : allocCost (st.isVer wid) = v := by
    rw [hv, allocCost]
    split_ifs <;> rfl
  obtain ⟨st', hst', ht⟩ := receiveAll_drains n r fuel st hfuel hn hr
  refine ⟨⟨st', hst', ?_, ?_, ?_, ?_⟩, ?_⟩
  · rw [ht.tally_self, hn, sub_self]
  · intro cell hcell
    rw [ht.tally, Function.update_of_ne hcell]
  · rw [ht.numRoPages, hr]
  · rw [ht.total, hcost, drainCost]
  · exact secondTallies_pos wid fuel (by omega) (by omega)

/-- Seven packets, with the program's number of read-only pages. -/
theorem receiveSource_drains_seven :
    let st := (State.init .default).store (.ucvf 3 4) 7
    ∃ st', receiveAll (.ucvf 3 4) 4 8 st = some st' ∧ st'.tally (.ucvf 3 4) = 0 ∧
      st'.numRoPages = 4 ∧ st'.total = 204853 := by
  intro st
  obtain ⟨⟨st', hst', htally, -, hro, htotal⟩, -⟩ :=
    receiveSource_drains 3 4 7 5 (256 * 400) 8 st (by decide) rfl rfl (by decide)
  have hst : st.total = 0 := rfl
  refine ⟨st', hst', htally, hro, ?_⟩
  rw [htotal, hst]
  decide

end SpecPriv.Simple
