/-
  The ownership of iterations in both translations.

  The original decides by `run_iteration` which worker of a stage runs an
  iteration, and takes the same decision at the beginning and at the end of it.
  Both translations pass a flag to `begin_iter` that `main` sets and never
  clears, and decide in other ways in `end_iter`.

  * `marks_iff`: when the flag is that of the round robin;
  * `agrees_iff`: when an iteration ends with the stage and the decision that
    it began with.
-/
import Mathlib.Data.Nat.ModEq
import SpecPriv.Simple.Calls
import SpecPriv.Trans.Uses

namespace SpecPriv.Compare

variable {W N k jump w iter : ℕ}

/-! ## The flag -/

/-- The simplified `main` marks the iteration as the worker's own. -/
def SimpleMarks (W N k jump w iter : ℕ) : Prop :=
  ∃ stage, Simple.MainCall.beginIter w iter stage 1 ∈ Simple.driverCalls W N k jump

/-- The `main` of the faithful translation marks the iteration as the worker's own. -/
def TransMarks (W N k jump w iter : ℕ) : Prop :=
  ∃ stage, Trans.MainCall.beginIter w iter stage 1 ∈ Trans.driverCalls W N k jump

/-- The iterations are marked in round robin, so that every one is marked for
    one worker of each group of `k`. -/
structure RoundRobin (W N k : ℕ) (marks : ℕ → ℕ → Prop) : Prop where
  marks_iff : ∀ w < W, ∀ iter < N, marks w iter ↔ w % k = iter % k
  exactly_one : ∀ g, k ∣ g → g + k ≤ W → ∀ iter < N, ∃! w, g ≤ w ∧ w < g + k ∧ marks w iter

/-- In the runs of both `main`s. -/
def MarksOwn (W N k jump : ℕ) : Prop :=
  RoundRobin W N k (SimpleMarks W N k jump) ∧ RoundRobin W N k (TransMarks W N k jump)

/-- The flag is set from the first iteration on that the worker owns. -/
theorem varsAt_isMyIter_eq_one (hk : 1 ≤ k) :
    (varsAt k jump w iter).isMyIter = 1 ↔ w % k ≤ iter := by
  rw [varsAt_isMyIter hk]
  split_ifs with h <;> simp [h]

theorem simpleMarks_iff (hk : 1 ≤ k) (hw : w < W) (hiter : iter < N) :
    SimpleMarks W N k jump w iter ↔ w % k ≤ iter := by
  have hflag : (varsAt k jump w iter).isMyIter = 1 ↔ w % k ≤ iter := varsAt_isMyIter_eq_one hk
  rw [← hflag]
  constructor
  · rintro ⟨stage, hcall⟩
    obtain ⟨w', -, iter', -, hcall⟩ := mem_loopCalls.1 hcall
    obtain ⟨hw', hiter', -, hflag⟩ := Simple.beginIter_mem_iterCalls.1 hcall
    obtain rfl : w = w' := by omega
    obtain rfl : iter = iter' := by omega
    omega
  · intro hflag
    refine ⟨(varsAt k jump w iter).myStage, mem_loopCalls.2 ⟨w, hw, iter, hiter, ?_⟩⟩
    rw [Simple.iterCalls, hflag]
    exact List.mem_cons_self

theorem transMarks_iff (hk : 1 ≤ k) (hw : w < W) (hiter : iter < N) :
    TransMarks W N k jump w iter ↔ w % k ≤ iter := by
  have hflag : (varsAt k jump w iter).isMyIter = 1 ↔ w % k ≤ iter := varsAt_isMyIter_eq_one hk
  rw [← hflag]
  constructor
  · rintro ⟨stage, hcall⟩
    obtain ⟨w', -, iter', -, hcall⟩ := mem_loopCalls.1 hcall
    obtain ⟨hw', hiter', -, hflag⟩ := Trans.beginIter_mem_iterCalls.1 hcall
    rw [hw', hiter', ← hflag]
  · intro hflag
    refine ⟨(varsAt k jump w iter).myStage, mem_loopCalls.2 ⟨w, hw, iter, hiter, ?_⟩⟩
    rw [Trans.iterCalls, hflag]
    exact List.mem_cons_self

/-- One worker of a group has the remainder of the iteration. -/
theorem existsUnique_mod_eq (hk : 1 ≤ k) {g : ℕ} (hg : k ∣ g) (iter : ℕ) :
    ∃! w, g ≤ w ∧ w < g + k ∧ w % k = iter % k := by
  obtain ⟨q, rfl⟩ := hg
  have hlt : iter % k < k := Nat.mod_lt iter hk
  refine ⟨k * q + iter % k, ⟨by omega, by omega, ?_⟩, ?_⟩
  · rw [Nat.mul_add_mod, Nat.mod_mod]
  · rintro w ⟨hge, hw, hmod⟩
    have hdiv : w / k = q := Nat.div_eq_of_lt_le (by rwa [Nat.mul_comm]) (by
      rw [Nat.succ_mul, Nat.mul_comm]
      exact hw)
    have := Nat.div_add_mod w k
    rw [hdiv, hmod] at this
    exact this.symm

/-- A flag that is set from the own iteration on is that of the round robin. -/
theorem roundRobin_iff (hk : 1 ≤ k) {marks : ℕ → ℕ → Prop}
    (hmarks : ∀ w < W, ∀ iter < N, marks w iter ↔ w % k ≤ iter) :
    RoundRobin W N k marks ↔ k = 1 ∨ N ≤ 1 ∨ W = 0 := by
  constructor
  · intro h
    by_contra hc
    push Not at hc
    obtain ⟨hk1, hN, hW⟩ := hc
    -- worker 0 is marked in iteration 1, because it was in iteration 0
    have hmark := (hmarks 0 (by omega) 1 hN).2 (by rw [Nat.zero_mod]; exact Nat.zero_le 1)
    have hmod := (h.marks_iff 0 (by omega) 1 hN).1 hmark
    rw [Nat.zero_mod, Nat.mod_eq_of_lt (by omega)] at hmod
    exact absurd hmod Nat.zero_ne_one
  · intro h
    have hiff : ∀ w < W, ∀ iter < N, marks w iter ↔ w % k = iter % k := by
      intro w hw iter hiter
      rw [hmarks w hw iter hiter]
      rcases h with rfl | hN | hW
      · rw [Nat.mod_one, Nat.mod_one]
        exact iff_of_true (Nat.zero_le iter) rfl
      · obtain rfl : iter = 0 := by omega
        rw [Nat.zero_mod, Nat.le_zero]
      · omega
    refine ⟨hiff, ?_⟩
    intro g hg hW iter hiter
    obtain ⟨w, ⟨hge, hlt, hmod⟩, hunique⟩ := existsUnique_mod_eq hk hg iter
    refine ⟨w, ⟨hge, hlt, (hiff w (by omega) iter hiter).2 hmod⟩, ?_⟩
    rintro w' ⟨hge', hlt', hmark⟩
    exact hunique w' ⟨hge', hlt', (hiff w' (by omega) iter hiter).1 hmark⟩

/-- **The flag of `main`.**  Both `main`s mark the iterations in round robin if
    and only if there is one worker for a stage, or at most one iteration, or no
    worker. -/
theorem marksOwn_iff (hk : 1 ≤ k) (W N jump : ℕ) :
    MarksOwn W N k jump ↔ k = 1 ∨ N ≤ 1 ∨ W = 0 := by
  have hsimple := roundRobin_iff (W := W) (N := N) hk fun w hw iter hiter =>
    (simpleMarks_iff hk hw hiter : SimpleMarks W N k jump w iter ↔ _)
  have htrans := roundRobin_iff (W := W) (N := N) hk fun w hw iter hiter =>
    (transMarks_iff hk hw hiter : TransMarks W N k jump w iter ↔ _)
  unfold MarksOwn
  rw [hsimple, htrans, and_self]

/-- The constants of the source. -/
theorem marksOwn_iff_default : MarksOwn 10 2 2 1 ↔ 2 = 1 ∨ 2 ≤ 1 ∨ 10 = 0 :=
  marksOwn_iff (by decide) 10 2 1

/-- With the constants of the source, worker 0 is marked in iteration 1. -/
theorem not_marksOwn : ¬ MarksOwn 10 2 2 1 := by
  intro h
  have hmark : SimpleMarks 10 2 2 1 0 1 :=
    (simpleMarks_iff (by decide) (by decide) (by decide)).2 (by decide)
  exact absurd ((h.1.marks_iff 0 (by decide) 1 (by decide)).1 hmark) (by decide)

/-! ## The end of an iteration -/

/-- The calls that begin and end an iteration in the simplified `main` have the
    same stage and the same flag, by which the end updates the predictions. -/
def SimpleAgrees (k jump w iter : ℕ) : Prop :=
  ∀ wid it stage isMyIter, Simple.MainCall.beginIter wid it stage isMyIter ∈
      Simple.iterCalls w iter (varsAt k jump w iter) →
    ∀ wid' stage' isMyIter', Simple.MainCall.endIter wid' stage' isMyIter' ∈
        Simple.iterCalls w iter (varsAt k jump w iter) →
      stage' = stage ∧ (isMyIter' ≠ 0 ↔ isMyIter ≠ 0)

/-- The same in the faithful translation, where the end updates the shadows if
    the worker has the number of the stage. -/
def TransAgrees (k jump w iter : ℕ) : Prop :=
  ∀ wid it stage isMyIter, Trans.MainCall.beginIter wid it stage isMyIter ∈
      Trans.iterCalls w iter (varsAt k jump w iter) →
    ∀ wid' it' stage', Trans.MainCall.endIter wid' it' stage' ∈
        Trans.iterCalls w iter (varsAt k jump w iter) →
      stage' = stage ∧ (wid' = Trans.asUnsigned stage' ↔ isMyIter ≠ 0)

/-- In both. -/
def Agrees (k jump w iter : ℕ) : Prop :=
  SimpleAgrees k jump w iter ∧ TransAgrees k jump w iter

theorem varsAt_isMyIter_ne_zero (hk : 1 ≤ k) :
    (varsAt k jump w iter).isMyIter ≠ 0 ↔ w % k ≤ iter := by
  rw [varsAt_isMyIter hk]
  split_ifs with h <;> simp [h]

/-- The simplified `main` ends an iteration with its number for the stage, and
    with the stage for the flag. -/
theorem simpleAgrees_iff (hk : 1 ≤ k) :
    SimpleAgrees k jump w iter ↔ w % k + iter / k * jump = iter ∧ iter ≠ 0 := by
  have hflag : (varsAt k jump w iter).isMyIter ≠ 0 ↔ w % k ≤ iter := varsAt_isMyIter_ne_zero hk
  rw [← varsAt_myStage iter]
  have hstage : (varsAt k jump w iter).myStage = iter → w % k ≤ iter := by
    rw [varsAt_myStage]
    omega
  constructor
  · intro h
    obtain ⟨hs, hf⟩ := h _ _ _ _ (Simple.beginIter_mem_iterCalls.2 ⟨rfl, rfl, rfl, rfl⟩)
      _ _ _ (Simple.endIter_mem_iterCalls.2 ⟨rfl, rfl, rfl⟩)
    have hs : (varsAt k jump w iter).myStage = iter := by omega
    rw [Int.natCast_ne_zero, Int.natCast_ne_zero, hflag, hs] at hf
    exact ⟨hs, hf.2 (hstage hs)⟩
  · rintro ⟨hs, h0⟩ wid it stage isMyIter hbegin wid' stage' isMyIter' hend
    obtain ⟨-, -, rfl, rfl⟩ := Simple.beginIter_mem_iterCalls.1 hbegin
    obtain ⟨-, rfl, rfl⟩ := Simple.endIter_mem_iterCalls.1 hend
    refine ⟨by rw [hs], ?_⟩
    rw [Int.natCast_ne_zero, Int.natCast_ne_zero, hflag]
    exact iff_of_true (hs.trans_ne h0) (hstage hs)

/-- The faithful `main` passes the stage, but the end of an iteration compares it
    with the number of the worker. -/
theorem transAgrees_iff (hk : 1 ≤ k) :
    TransAgrees k jump w iter ↔
      (w = Trans.asUnsigned (w % k + iter / k * jump : ℕ) ↔ w % k ≤ iter) := by
  have hflag : (varsAt k jump w iter).isMyIter ≠ 0 ↔ w % k ≤ iter := varsAt_isMyIter_ne_zero hk
  rw [← varsAt_myStage iter, ← hflag]
  constructor
  · intro h
    obtain ⟨-, hf⟩ := h _ _ _ _ (Trans.beginIter_mem_iterCalls.2 ⟨rfl, rfl, rfl, rfl⟩)
      _ _ _ (Trans.endIter_mem_iterCalls.2 ⟨rfl, rfl, rfl⟩)
    exact hf
  · intro h wid it stage isMyIter hbegin wid' it' stage' hend
    obtain ⟨-, -, rfl, rfl⟩ := Trans.beginIter_mem_iterCalls.1 hbegin
    obtain ⟨rfl, -, rfl⟩ := Trans.endIter_mem_iterCalls.1 hend
    exact ⟨rfl, h⟩

/-- The jumps lead to the number of the worker, if they do not have the length
    of a group, only in the first group. -/
theorem mod_add_div_mul_eq_self (hk : 1 ≤ k) (w jump : ℕ) :
    w % k + w / k * jump = w ↔ w < k ∨ jump = k := by
  have hw := Nat.mod_add_div' w k
  have hgroup : w / k = 0 ↔ w < k := by rw [Nat.div_eq_zero_iff, or_iff_right (by omega)]
  rw [← hgroup]
  constructor
  · intro h
    have hmul : w / k * jump = w / k * k := by omega
    rcases Nat.eq_zero_or_pos (w / k) with h0 | hpos
    · exact .inl h0
    · exact .inr (Nat.eq_of_mul_eq_mul_left hpos hmul)
  · rintro (h | rfl)
    · rw [h, Nat.zero_mul] at hw ⊢
      exact hw
    · exact hw

/-- **When begin and end agree**: in both translations if and only if the
    iteration, an `int` of `main`, has the number of the worker, which is not 0,
    and the jumps have led to that stage. -/
theorem agrees_iff (hk : 1 ≤ k) (hiter : iter < 2 ^ 31) (jump w : ℕ) :
    Agrees k jump w iter ↔ w = iter ∧ w ≠ 0 ∧ (w < k ∨ jump = k) := by
  have hunsigned : Trans.asUnsigned iter = iter := Trans.asUnsigned_natCast (by omega)
  unfold Agrees
  rw [simpleAgrees_iff hk, transAgrees_iff hk]
  constructor
  · rintro ⟨⟨hs, h0⟩, hown⟩
    rw [hs, hunsigned] at hown
    obtain rfl : w = iter := hown.2 (by omega)
    exact ⟨rfl, h0, (mod_add_div_mul_eq_self hk w jump).1 hs⟩
  · rintro ⟨rfl, h0, hjump⟩
    have hs := (mod_add_div_mul_eq_self hk w jump).2 hjump
    rw [hs, hunsigned]
    exact ⟨⟨rfl, h0⟩, iff_of_true rfl (Nat.mod_le w k)⟩

/-- The first iteration of worker 1 that is its own, with the constants of the
    source. -/
theorem agrees_iff_default : 1 ≤ 2 ∧ 1 < 2 ^ 31 ∧
    (Agrees 2 1 1 1 ↔ 1 = 1 ∧ 1 ≠ 0 ∧ (1 < 2 ∨ 1 = 2)) :=
  ⟨by decide, by decide, agrees_iff (by decide) (by decide) 1 1⟩

/-- With the constants of the source, the simplified `main` ends iteration 0 of
    worker 0 with flag 0, though it began with 1; the faithful one ends iteration 0
    of worker 1 as if the worker owned it. -/
theorem not_agrees :
    ¬ (∀ w < 10, ∀ iter < 2, SimpleAgrees 2 1 w iter) ∧
      ¬ ∀ w < 10, ∀ iter < 2, TransAgrees 2 1 w iter := by
  constructor
  · intro h
    exact absurd ((simpleAgrees_iff (by decide)).1 (h 0 (by decide) 0 (by decide))) (by decide)
  · intro h
    exact absurd ((transAgrees_iff (by decide)).1 (h 1 (by decide) 0 (by decide))) (by decide)

end SpecPriv.Compare
