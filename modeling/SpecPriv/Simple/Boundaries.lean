/-
  The queues between two iterations of `main`.

  `Config.callsBefore w n`: what `main` has called when the worker `w` has
  ended `n` iterations.  `Shape` says which queues are full then.

  `boundaries_fullOrEmpty`: all of them are full or empty.  The commit queues
  are full all together, and that from the first iteration on that sends to
  them; the reverse commit queues are empty.
-/
import Mathlib.Data.List.Infix
import SpecPriv.Simple.Price

namespace SpecPriv.Simple

open Loop

variable {c : Config} {fuel w n : ℕ}

/-- The calls of the workers before `w`, and of the first `n` iterations of
    `w`. -/
def Config.callsBefore (c : Config) (w n : ℕ) : List MainCall :=
  ((List.range w).flatMap fun w' => c.workerCalls w' c.iters) ++ c.workerCalls w n

/-- An iteration before the iteration `n` of `w` sends to the commit queues. -/
def Config.Committed (c : Config) (w n : ℕ) : Prop :=
  ∃ w' n', (w' < w ∧ n' < c.iters ∨ w' = w ∧ n' < n) ∧ 0 < c.commitPackets w' n'

theorem range_initial {m n : ℕ} (h : m ≤ n) : List.range m <+: List.range n := by
  refine ⟨(List.range (n - m)).map (m + ·), ?_⟩
  rw [← List.range_add, Nat.add_sub_cancel' h]

/-- They are a first part of the calls of `main`. -/
theorem callsBefore_initial (hw : w < c.width) (hn : n ≤ c.iters) :
    c.callsBefore w n <+: c.mainCalls := by
  have hworker : c.workerCalls w n <+: c.workerCalls w c.iters :=
    (range_initial hn).flatMap _
  have hworkers : c.callsBefore w c.iters <+: c.mainCalls := by
    have hrange : (List.range w).flatMap (fun w' => c.workerCalls w' c.iters) ++
        c.workerCalls w c.iters =
          (List.range (w + 1)).flatMap fun w' => c.workerCalls w' c.iters := by
      rw [List.range_succ, List.flatMap_append, List.flatMap_singleton]
    unfold Config.callsBefore
    rw [hrange]
    exact (range_initial hw).flatMap _
  exact (List.prefix_append_right_inj _ |>.2 hworker).trans hworkers

/-! ## The state at a boundary -/

theorem callsBefore_run (hfuel : limit < fuel) (hw : w < c.width) (n : ℕ) :
    ∃ st, runMain c fuel (c.callsBefore w n) (beginInvocation c (.init c)) = some st ∧
      Fits c (c.shapeAt w n) st.ledger := by
  obtain ⟨st, hst, hfits, -⟩ := workersCalls_fits c hfuel w hw.le
  obtain ⟨st', hst', hfits', -⟩ := workerCalls_fits hfits hw hfuel n
  refine ⟨st', ?_, hfits'⟩
  rw [Config.callsBefore, runMain_append, hst, Option.bind_some, hst']

theorem afterIters_committed (c : Config) (w : ℕ) (sh : Shape) (n : ℕ) :
    (Shape.afterIters c w sh n).committed = true ↔
      sh.committed = true ∨ ∃ n' < n, 0 < c.commitPackets w n' := by
  induction n with
  | zero => simp [Shape.afterIters]
  | succ n ih =>
    have hnext : (Shape.afterIters c w sh (n + 1)).committed =
        ((Shape.afterIters c w sh n).committed || decide (0 < c.commitPackets w n)) := rfl
    rw [hnext, Bool.or_eq_true, decide_eq_true_iff, ih, or_assoc]
    refine or_congr_right ?_
    constructor
    · rintro (⟨n', hn', hpos⟩ | hpos)
      · exact ⟨n', hn'.trans n.lt_succ_self, hpos⟩
      · exact ⟨n, n.lt_succ_self, hpos⟩
    · rintro ⟨n', hn', hpos⟩
      rcases Nat.lt_succ_iff_lt_or_eq.1 hn' with hlt | rfl
      · exact Or.inl ⟨n', hlt, hpos⟩
      · exact Or.inr hpos

theorem afterWorkers_committed (c : Config) (w : ℕ) :
    (Shape.afterWorkers c w).committed = true ↔
      ∃ w' < w, ∃ n' < c.iters, 0 < c.commitPackets w' n' := by
  induction w with
  | zero => simp [Shape.afterWorkers, Shape.init]
  | succ w ih =>
    rw [Shape.afterWorkers, afterIters_committed, ih]
    constructor
    · rintro (⟨w', hw', h⟩ | h)
      · exact ⟨w', hw'.trans w.lt_succ_self, h⟩
      · exact ⟨w, w.lt_succ_self, h⟩
    · rintro ⟨w', hw', h⟩
      rcases Nat.lt_succ_iff_lt_or_eq.1 hw' with hlt | rfl
      · exact Or.inl ⟨w', hlt, h⟩
      · exact Or.inr h

theorem shapeAt_committed (c : Config) (w n : ℕ) :
    (c.shapeAt w n).committed = true ↔ c.Committed w n := by
  rw [Config.shapeAt, afterIters_committed, afterWorkers_committed]
  constructor
  · rintro (⟨w', hw', n', hn', hpos⟩ | ⟨n', hn', hpos⟩)
    · exact ⟨w', n', Or.inl ⟨hw', hn'⟩, hpos⟩
    · exact ⟨w, n', Or.inr ⟨rfl, hn'⟩, hpos⟩
  · rintro ⟨w', n', ⟨hw', hn'⟩ | ⟨rfl, hn'⟩, hpos⟩
    · exact Or.inl ⟨w', hw', n', hn', hpos⟩
    · exact Or.inr ⟨n', hn', hpos⟩

/-- **Between two iterations of `main` every queue is full or empty.**  `main`
    gets there; the commit queues are full if an iteration before sent to them,
    and otherwise empty; each worker queue in a row that `main` computes is
    full or empty; and the reverse commit queues are empty. -/
theorem boundaries_fullOrEmpty (hfuel : limit < fuel) (hw : w < c.width) (hn : n ≤ c.iters) :
    c.callsBefore w n <+: c.mainCalls ∧
    ∃ st, runMain c fuel (c.callsBefore w n) (beginInvocation c (.init c)) = some st ∧
      (c.Committed w n → ∀ idx < c.numAuxWorkers, st.tally (.commit idx) = 16) ∧
      (¬ c.Committed w n → ∀ idx < c.numAuxWorkers, st.tally (.commit idx) = 0) ∧
      (∀ res < 12, ∀ v < c.width,
        st.tally (.ucvf (c.row res) v) = 0 ∨ st.tally (.ucvf (c.row res) v) = 16) ∧
      ∀ v, st.tally (.reverse v) = 0 := by
  obtain ⟨st, hst, hfits⟩ := callsBefore_run hfuel hw n
  refine ⟨callsBefore_initial hw hn, st, hst, ?_, ?_, ?_, hfits.reverse⟩
  · intro hcommitted idx hidx
    have htally := hfits.commit idx hidx
    rw [(shapeAt_committed c w n).2 hcommitted] at htally
    exact htally
  · intro hcommitted idx hidx
    have htally := hfits.commit idx hidx
    rw [Bool.eq_false_of_not_eq_true (mt (shapeAt_committed c w n).1 hcommitted)] at htally
    exact htally
  · intro res hres v hv
    have htally := hfits.ucvf res hres v hv
    cases hfull : (c.shapeAt w n).full res v
    · rw [hfull] at htally
      exact Or.inl htally
    · rw [hfull] at htally
      exact Or.inr htally

/-- The fourth worker after one iteration, with the constants of the source. -/
theorem boundaries_fullOrEmpty_default :
    Config.default.callsBefore 3 1 <+: Config.default.mainCalls ∧
    ∃ st, runMain .default 17 (Config.default.callsBefore 3 1)
        (beginInvocation .default (.init .default)) = some st ∧
      (Config.default.Committed 3 1 →
        ∀ idx < Config.default.numAuxWorkers, st.tally (.commit idx) = 16) ∧
      (¬ Config.default.Committed 3 1 →
        ∀ idx < Config.default.numAuxWorkers, st.tally (.commit idx) = 0) ∧
      (∀ res < 12, ∀ v < Config.default.width,
        st.tally (.ucvf (Config.default.row res) v) = 0 ∨
          st.tally (.ucvf (Config.default.row res) v) = 16) ∧
      ∀ v, st.tally (.reverse v) = 0 :=
  boundaries_fullOrEmpty (by decide) (by decide) (by decide)

end SpecPriv.Simple
