/-
  Stages of the pipeline and the owner of an iteration.

  The stages split the workers into consecutive ranges of worker ids;
  iterations are numbered by `ℕ`.
  `StageLayout` holds the macros that describe the split (`GET_MY_STAGE`,
  `GET_FIRST_WID_OF_STAGE`, `GET_REPLICATION_FACTOR`,
  `GET_WID_OFFSET_IN_STAGE`) with what they promise; `runIteration`,
  `pipelineFillIter` and `eoiTest` are the three tests that are made with them.

  * `runIteration_iff`, `eoiTest_iff`, `pipelineFillIter_iff`: each test says
    how the worker's offset in its stage compares with the iteration;
  * `owner_unique`: hence the tests agree and every iteration has one owner
    in every stage.
-/
import Mathlib.Data.UInt
import Mathlib.Logic.ExistsUnique

namespace SpecPriv

/-- Worker ids are unsigned 32-bit numbers. -/
abbrev Wid := UInt32

/-- The macros for the stages, over workers `0`, …, `numWorkers - 1`. -/
structure StageLayout where
  numStages : ℕ
  numWorkers : ℕ
  getMyStage : Wid → ℕ
  getFirstWidOfStage : ℕ → Wid
  getReplicationFactor : ℕ → UInt32
  getWidOffsetInStage : UInt32 → ℕ → UInt32
  /-- worker ids are below `2 ^ 31` -/
  numWorkers_le : numWorkers ≤ 2 ^ 31
  first_zero : 0 < numStages → (getFirstWidOfStage 0).toNat = 0
  first_succ : ∀ s, s + 1 < numStages → (getFirstWidOfStage (s + 1)).toNat =
    (getFirstWidOfStage s).toNat + (getReplicationFactor s).toNat
  /-- the last range ends with the last worker -/
  first_last : ∀ s, s + 1 = numStages →
    (getFirstWidOfStage s).toNat + (getReplicationFactor s).toNat = numWorkers
  replication_pos : ∀ s < numStages, 0 < (getReplicationFactor s).toNat
  myStage_lt : ∀ wid : Wid, wid.toNat < numWorkers → getMyStage wid < numStages
  /-- a worker lies in the range of its stage -/
  myStage_range : ∀ wid : Wid, wid.toNat < numWorkers →
    (getFirstWidOfStage (getMyStage wid)).toNat ≤ wid.toNat ∧
      wid.toNat < (getFirstWidOfStage (getMyStage wid)).toNat +
        (getReplicationFactor (getMyStage wid)).toNat
  widOffset : ∀ i s, s < numStages → getWidOffsetInStage i s = i % getReplicationFactor s

variable (L : StageLayout)

def runIteration (wid : Wid) (iter : ℕ) : Bool :=
  let stage := L.getMyStage wid
  let widOffset : Wid := UInt32.ofNat iter % L.getReplicationFactor stage
  let targetWid : Wid := L.getFirstWidOfStage stage + widOffset
  targetWid == wid

def pipelineFillIter (wid : Wid) (iter : ℕ) : Bool :=
  let stage := L.getMyStage wid
  if L.getFirstWidOfStage stage + UInt32.ofNat iter < wid then true else false

/-- The test of `end_iter` for sending the end-of-iteration event. -/
def eoiTest (wid : Wid) (iter : ℕ) : Bool :=
  let stage := L.getMyStage wid
  let widOffset := L.getWidOffsetInStage (UInt32.ofNat iter) stage
  wid - L.getFirstWidOfStage stage == widOffset

namespace StageLayout

/-- `wid` is a worker of stage `s`. -/
def IsWorkerOf (s : ℕ) (wid : Wid) : Prop := wid.toNat < L.numWorkers ∧ L.getMyStage wid = s

/-- The first worker id of a stage. -/
def first (s : ℕ) : ℕ := (L.getFirstWidOfStage s).toNat

/-- The number of workers of a stage. -/
def width (s : ℕ) : ℕ := (L.getReplicationFactor s).toNat

variable {L} {s : ℕ} {wid : Wid} {iter : ℕ}

/-- The ranges of the stages end at or before the last worker. -/
theorem first_add_width_le (hs : s < L.numStages) : L.first s + L.width s ≤ L.numWorkers := by
  obtain ⟨d, hd⟩ : ∃ d, s + 1 + d = L.numStages := ⟨L.numStages - (s + 1), by omega⟩
  induction d generalizing s with
  | zero => exact (L.first_last s hd).le
  | succ d ih =>
    have hnext : L.first (s + 1) = L.first s + L.width s := L.first_succ s (by omega)
    have hle := ih (s := s + 1) (by omega) (by omega)
    omega

/-- The ranges are ordered as the stages are. -/
theorem first_add_width_le_first {s' : ℕ} (hs' : s' < L.numStages) (h : s < s') :
    L.first s + L.width s ≤ L.first s' := by
  induction s', h using Nat.le_induction with
  | base => exact (L.first_succ s hs').ge
  | succ k hk ih =>
    have hstep : L.first (k + 1) = L.first k + L.width k := L.first_succ k hs'
    have hle := ih (by omega)
    omega

/-- The workers of a stage are those of its range. -/
theorem isWorkerOf_iff (hs : s < L.numStages) :
    L.IsWorkerOf s wid ↔ L.first s ≤ wid.toNat ∧ wid.toNat < L.first s + L.width s := by
  constructor
  · rintro ⟨hw, rfl⟩
    exact L.myStage_range wid hw
  · rintro ⟨hlo, hhi⟩
    have hw : wid.toNat < L.numWorkers := hhi.trans_le (first_add_width_le hs)
    obtain ⟨hlo', hhi'⟩ : L.first (L.getMyStage wid) ≤ wid.toNat ∧
      wid.toNat < L.first (L.getMyStage wid) + L.width (L.getMyStage wid) := L.myStage_range wid hw
    refine ⟨hw, ?_⟩
    -- the ranges of two different stages do not meet
    rcases lt_trichotomy (L.getMyStage wid) s with h | h | h
    · have hend := first_add_width_le_first hs h
      omega
    · exact h
    · have hend := first_add_width_le_first (L.myStage_lt wid hw) h
      omega

theorem width_pos (hs : s < L.numStages) : 0 < L.width s := L.replication_pos s hs

theorem IsWorkerOf.stage_lt (h : L.IsWorkerOf s wid) : s < L.numStages := by
  obtain ⟨hw, rfl⟩ := h
  exact L.myStage_lt wid hw

theorem toNat_getFirstWidOfStage : (L.getFirstWidOfStage s).toNat = L.first s := rfl

theorem toNat_iteration (hi : iter < 2 ^ 31) : (UInt32.ofNat iter).toNat = iter := by
  rw [UInt32.toNat_ofNat', Nat.mod_eq_of_lt (by omega)]

/-- The offset of an owner, as a machine word. -/
theorem toNat_widOffset (hi : iter < 2 ^ 31) (s : ℕ) :
    (UInt32.ofNat iter % L.getReplicationFactor s).toNat = iter % L.width s := by
  rw [UInt32.toNat_mod, toNat_iteration hi]
  rfl

/-! ## The three tests -/

/-- `run_iteration`: the worker's offset in its stage is the iteration modulo
    the replication factor. -/
theorem runIteration_iff (h : L.IsWorkerOf s wid) (hi : iter < 2 ^ 31) :
    runIteration L wid iter ↔ wid.toNat - L.first s = iter % L.width s := by
  have hs := h.stage_lt
  obtain ⟨hlo, hhi⟩ := (isWorkerOf_iff hs).1 h
  have hmod : iter % L.width s < L.width s := Nat.mod_lt _ (width_pos hs)
  have hbound := first_add_width_le hs
  have hmax := L.numWorkers_le
  have hsum : (L.getFirstWidOfStage s + UInt32.ofNat iter % L.getReplicationFactor s).toNat =
      L.first s + iter % L.width s := by
    rw [UInt32.toNat_add, toNat_widOffset hi, toNat_getFirstWidOfStage]
    exact Nat.mod_eq_of_lt (by omega)
  simp only [runIteration, h.2, beq_iff_eq, ← UInt32.toNat_inj, hsum]
  omega

/-- The test for the end-of-iteration event says the same. -/
theorem eoiTest_iff (h : L.IsWorkerOf s wid) (hi : iter < 2 ^ 31) :
    eoiTest L wid iter ↔ wid.toNat - L.first s = iter % L.width s := by
  have hs := h.stage_lt
  obtain ⟨hlo, -⟩ := (isWorkerOf_iff hs).1 h
  have hsub : (wid - L.getFirstWidOfStage s).toNat = wid.toNat - L.first s :=
    UInt32.toNat_sub_of_le _ _ hlo
  simp only [eoiTest, h.2, beq_iff_eq, ← UInt32.toNat_inj, hsub, L.widOffset _ s hs,
    toNat_widOffset hi]

/-- The owner of an iteration sends its end-of-iteration event. -/
theorem eoiTest_of_runIteration (hw : wid.toNat < L.numWorkers) (hi : iter < 2 ^ 31)
    (hrun : runIteration L wid iter) : eoiTest L wid iter := by
  have hworker : L.IsWorkerOf (L.getMyStage wid) wid := ⟨hw, rfl⟩
  rw [runIteration_iff hworker hi] at hrun
  rwa [eoiTest_iff hworker hi]

/-- `pipeline_fill_iter`: the iteration is below the worker's offset. -/
theorem pipelineFillIter_iff (h : L.IsWorkerOf s wid) (hi : iter < 2 ^ 31) :
    pipelineFillIter L wid iter ↔ iter < wid.toNat - L.first s := by
  have hs := h.stage_lt
  obtain ⟨hlo, hhi⟩ := (isWorkerOf_iff hs).1 h
  have hbound := first_add_width_le hs
  have hmax := L.numWorkers_le
  have hpos := width_pos hs
  have hsum : (L.getFirstWidOfStage s + UInt32.ofNat iter).toNat = L.first s + iter := by
    rw [UInt32.toNat_add, toNat_iteration hi, toNat_getFirstWidOfStage]
    exact Nat.mod_eq_of_lt (by omega)
  simp only [pipelineFillIter, h.2, UInt32.lt_iff_toNat_lt, hsum, Bool.if_false_right,
    Bool.and_true, decide_eq_true_eq]
  omega

/-! ## Owners -/

/-- In a window of `w` consecutive numbers, exactly one has a given rest
    modulo `w`. -/
theorem existsUnique_mod {w r : ℕ} (hr : r < w) (i₀ : ℕ) :
    ∃! i, (i₀ ≤ i ∧ i < i₀ + w) ∧ r = i % w := by
  have hrest : i₀ % w < w := Nat.mod_lt _ (by omega)
  have hdiv := Nat.div_add_mod i₀ w
  refine ⟨if i₀ % w ≤ r then w * (i₀ / w) + r else w * (i₀ / w) + w + r, ?_, ?_⟩
  · split_ifs with h
    · refine ⟨by omega, ?_⟩
      rw [Nat.mul_add_mod, Nat.mod_eq_of_lt hr]
    · refine ⟨by omega, ?_⟩
      rw [show w * (i₀ / w) + w + r = w * (i₀ / w + 1) + r by rw [Nat.mul_succ], Nat.mul_add_mod,
        Nat.mod_eq_of_lt hr]
  · rintro i ⟨⟨hlo, hhi⟩, rfl⟩
    have hi := Nat.div_add_mod i w
    have hge : i₀ / w ≤ i / w := Nat.div_le_div_right hlo
    have hle : i / w ≤ i₀ / w + 1 := by
      rw [← Nat.add_div_right i₀ (by omega)]
      exact Nat.div_le_div_right hhi.le
    rcases (by omega : i / w = i₀ / w ∨ i / w = i₀ / w + 1) with h | h
    · rw [h] at hi
      rw [if_pos (by omega)]
      omega
    · rw [h, Nat.mul_succ] at hi
      rw [if_neg (by omega)]
      omega

/-- A worker that is ahead of all iterations up to `iter` owns none of them. -/
theorem lt_offset_iff {d w : ℕ} (hd : d < w) : iter < d ↔ ∀ i ≤ iter, d ≠ i % w := by
  constructor
  · intro h i hi hdi
    rw [Nat.mod_eq_of_lt (by omega)] at hdi
    omega
  · intro h
    by_contra hle
    exact h d (by omega) (Nat.mod_eq_of_lt hd).symm

/-- **Every iteration has one owner per stage**, and the tests agree on it. -/
theorem owner_unique (hs : s < L.numStages) (hi : iter < 2 ^ 31) :
    (∃! wid, L.IsWorkerOf s wid ∧ runIteration L wid iter) ∧
    (∀ wid, L.IsWorkerOf s wid → (eoiTest L wid iter ↔ runIteration L wid iter)) ∧
    (∀ wid, L.IsWorkerOf s wid → ∀ i₀, i₀ + L.width s ≤ 2 ^ 31 →
      ∃! i, (i₀ ≤ i ∧ i < i₀ + L.width s) ∧ runIteration L wid i) ∧
    (∀ wid, L.IsWorkerOf s wid →
      (pipelineFillIter L wid iter ↔ ∀ i ≤ iter, ¬ runIteration L wid i)) := by
  refine ⟨?_, ?_, ?_, ?_⟩
  · have hmod : iter % L.width s < L.width s := Nat.mod_lt _ (width_pos hs)
    have hbound := first_add_width_le hs
    have hmax := L.numWorkers_le
    have hnat : (UInt32.ofNat (L.first s + iter % L.width s)).toNat =
        L.first s + iter % L.width s := toNat_iteration (by omega)
    have hw : L.IsWorkerOf s (UInt32.ofNat (L.first s + iter % L.width s)) :=
      (isWorkerOf_iff hs).2 (by omega)
    refine ⟨_, ⟨hw, (runIteration_iff hw hi).2 (by omega)⟩, ?_⟩
    rintro wid ⟨h, hrun⟩
    have hoff := (runIteration_iff h hi).1 hrun
    obtain ⟨hlo, -⟩ := (isWorkerOf_iff hs).1 h
    exact UInt32.toNat_inj.1 (by omega)
  · intro wid h
    rw [eoiTest_iff h hi, runIteration_iff h hi]
  · intro wid h i₀ hwin
    obtain ⟨hlo, hhi⟩ := (isWorkerOf_iff hs).1 h
    obtain ⟨i, ⟨hwi, hri⟩, huniq⟩ :=
      existsUnique_mod (show wid.toNat - L.first s < L.width s by omega) i₀
    refine ⟨i, ⟨hwi, (runIteration_iff h (by omega)).2 hri⟩, ?_⟩
    rintro j ⟨hwj, hrj⟩
    exact huniq j ⟨hwj, (runIteration_iff h (by omega)).1 hrj⟩
  · intro wid h
    obtain ⟨hlo, hhi⟩ := (isWorkerOf_iff hs).1 h
    rw [pipelineFillIter_iff h hi, lt_offset_iff (show wid.toNat - L.first s < L.width s by omega)]
    refine forall₂_congr ?_
    intro i hi'
    rw [runIteration_iff h (by omega)]

/-- A sequential stage of one worker, then a parallel stage of two. -/
def oneThenTwo : StageLayout where
  numStages := 2
  numWorkers := 3
  getMyStage wid := if wid = 0 then 0 else 1
  getFirstWidOfStage s := if s = 0 then 0 else 1
  getReplicationFactor s := if s = 0 then 1 else 2
  getWidOffsetInStage i s := i % if s = 0 then 1 else 2
  numWorkers_le := by decide
  first_zero _ := rfl
  first_succ s hs := by
    obtain rfl : s = 0 := by omega
    rfl
  first_last s hs := by
    obtain rfl : s = 1 := by omega
    rfl
  replication_pos s _ := by split_ifs <;> decide
  myStage_lt wid _ := by split_ifs <;> omega
  myStage_range wid hw := by
    by_cases h : wid = 0
    · subst h; decide
    · have hpos : wid.toNat ≠ 0 := fun h0 => h (UInt32.toNat_inj.1 h0)
      simp only [h, if_false, one_ne_zero]
      exact ⟨show 1 ≤ _ by omega, show _ < 1 + 2 by omega⟩
  widOffset _ _ _ := rfl

theorem owner_unique_oneThenTwo :
    (∃! wid, oneThenTwo.IsWorkerOf 1 wid ∧ runIteration oneThenTwo wid 7) ∧
    (∀ wid, oneThenTwo.IsWorkerOf 1 wid →
      (eoiTest oneThenTwo wid 7 ↔ runIteration oneThenTwo wid 7)) ∧
    (∀ wid, oneThenTwo.IsWorkerOf 1 wid → ∀ i₀, i₀ + oneThenTwo.width 1 ≤ 2 ^ 31 →
      ∃! i, (i₀ ≤ i ∧ i < i₀ + oneThenTwo.width 1) ∧ runIteration oneThenTwo wid i) ∧
    (∀ wid, oneThenTwo.IsWorkerOf 1 wid →
      (pipelineFillIter oneThenTwo wid 7 ↔ ∀ i ≤ 7, ¬ runIteration oneThenTwo wid i)) :=
  owner_unique (by decide) (by decide)

end StageLayout

end SpecPriv
