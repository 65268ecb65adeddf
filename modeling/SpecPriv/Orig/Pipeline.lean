/-
  The workers of a pipeline, side by side.

  Every worker goes through its iterations by itself; the workers share the PCB
  and the flag that lets them go on after the first iteration.  Between any two
  steps of a worker other workers may take steps, and the commit side may
  record a misspeculation or set the flag.

  `BeginStep` cuts `begin_iter` into the steps between which other processes
  may interfere; without interference they are `begin_iter` (`beginIter_iff`).

  * `eoi_once`: every worker has sent one frame of calls for every iteration
    that it owns and ended, in order, and no others; so a stage sends the frame
    of an iteration once;
  * `misspec_stops`: once a misspeculation is recorded at iteration `k`, no
    worker begins the body of an iteration from `k` on;
  * `firstIter_first`: before the flag is set, nothing is sent but for the
    first iteration;
  * `can_finish`: as long as no misspeculation is recorded nobody exits, and
    the pipeline can go on to the end of any iteration.
-/
import Mathlib.Logic.Relation
import SpecPriv.Clean.LoopEvent
import SpecPriv.Orig.Frames

namespace SpecPriv

open Stopping Relation

/-- Where a worker is in its iteration. -/
inductive Phase
  /-- before the receipt of the incoming packets -/
  | beginning
  /-- at the call of `check_misspec` -/
  | arrived
  /-- after it -/
  | checked
  /-- between `begin_iter` and `end_iter` -/
  | body
  | exited
deriving DecidableEq

/-- A misspeculation is recorded at or before iteration `k`. -/
def PCB.RecordedBy (pcb : PCB) (k : ℤ) : Prop :=
  pcb.misspeculationHappened = true ∧ pcb.misspeculatedIteration ≤ k

structure WorkerState (am : AddressMap) (σ : Type) where
  process : Process am σ
  phase : Phase

variable {am : AddressMap} {σ : Type}

/-- What the functions of the runtime that `begin_iter` calls, and the body of
    the loop, leave alone: the iteration, the calls for the end of the
    iteration, and what is already recorded in the shared state. -/
structure SameFrame (p p' : Process am σ) : Prop where
  currentIter : p'.currentIter = p.currentIter
  log : p'.out.log = p.out.log
  goodToGo : p.goodToGo = true → p'.goodToGo = true
  recorded : ∀ k, p.pcb.RecordedBy k → p'.pcb.RecordedBy k

structure Externals.Framed (ext : Externals am σ) : Prop where
  processReverseCommitQueue : ∀ wid p, SameFrame p (ext.processReverseCommitQueue wid p)
  processIncomingPackets : ∀ wid iter p, SameFrame p (ext.processIncomingPackets wid iter p)
  updateLoopInvariants : ∀ p, SameFrame p (ext.updateLoopInvariants p)
  updateLinearPredictedValues : ∀ p, SameFrame p (ext.updateLinearPredictedValues p)
  toTryCommit : ∀ wid ptr value size p, SameFrame p (ext.toTryCommit wid ptr value size p)
  resetProtection : ∀ wid p, SameFrame p (ext.resetProtection wid p)

/-- The functions of the runtime that `begin_iter` calls record no
    misspeculation. -/
structure Externals.Quiet (ext : Externals am σ) : Prop where
  processIncomingPackets : ∀ wid iter p, p.pcb.misspeculationHappened = false →
    (ext.processIncomingPackets wid iter p).pcb.misspeculationHappened = false
  updateLoopInvariants : ∀ p, p.pcb.misspeculationHappened = false →
    (ext.updateLoopInvariants p).pcb.misspeculationHappened = false
  updateLinearPredictedValues : ∀ p, p.pcb.misspeculationHappened = false →
    (ext.updateLinearPredictedValues p).pcb.misspeculationHappened = false
  toTryCommit : ∀ wid ptr value size p, p.pcb.misspeculationHappened = false →
    (ext.toTryCommit wid ptr value size p).pcb.misspeculationHappened = false
  resetProtection : ∀ wid p, p.pcb.misspeculationHappened = false →
    (ext.resetProtection wid p).pcb.misspeculationHappened = false

/-- The steps of `begin_iter`. -/
inductive BeginStep (ext : Externals am σ) (wid : Wid) :
    WorkerState am σ → WorkerState am σ → Prop
  | wait (p : Process am σ) (hiter : p.currentIter ≠ 0) (hwait : p.goodToGo = false) :
      BeginStep ext wid ⟨p, .beginning⟩ ⟨ext.processReverseCommitQueue wid p, .beginning⟩
  | receive (p : Process am σ) (h : p.currentIter = 0 ∨ p.goodToGo = true) :
      BeginStep ext wid ⟨p, .beginning⟩ ⟨ext.processIncomingPackets wid p.currentIter p, .arrived⟩
  | exit (p : Process am σ) (h : p.misspeculated = true) :
      BeginStep ext wid ⟨p, .arrived⟩ ⟨p, .exited⟩
  | pass (p : Process am σ) (h : p.misspeculated = false) :
      BeginStep ext wid ⟨p, .arrived⟩ ⟨p, .checked⟩
  | proceed (p : Process am σ) :
      BeginStep ext wid ⟨p, .checked⟩ ⟨SpecPriv.proceed ext wid p.currentIter p, .body⟩

/-- The steps of a worker. -/
inductive WorkerStep (ext : Externals am σ) (wid : Wid) :
    WorkerState am σ → WorkerState am σ → Prop
  | begin (l l' : WorkerState am σ) (h : BeginStep ext wid l l') : WorkerStep ext wid l l'
  | body (p p' : Process am σ) (h : SameFrame p p') : WorkerStep ext wid ⟨p, .body⟩ ⟨p', .body⟩
  | finish (p : Process am σ) (hi : p.currentIter < 2 ^ 31) :
      WorkerStep ext wid ⟨p, .body⟩
        ⟨{ p with toWorker := endIter ext.toRuntime wid p.toWorker }, .beginning⟩

/-- All workers, and what they share. -/
structure Pipeline (am : AddressMap) (σ : Type) where
  worker : Wid → WorkerState am σ
  pcb : PCB
  goodToGo : Bool

namespace Pipeline

/-- What a worker sees: itself and the shared state. -/
def view (s : Pipeline am σ) (wid : Wid) : WorkerState am σ :=
  ⟨{ (s.worker wid).process with pcb := s.pcb, goodToGo := s.goodToGo }, (s.worker wid).phase⟩

/-- The pipeline after a step of a worker. -/
def moved (s : Pipeline am σ) (wid : Wid) (l : WorkerState am σ) : Pipeline am σ :=
  ⟨Function.update s.worker wid l, l.process.pcb, l.process.goodToGo⟩

inductive Step (ext : Externals am σ) : Pipeline am σ → Pipeline am σ → Prop
  | worker (s : Pipeline am σ) (wid : Wid) (hw : wid.toNat < ext.layout.numWorkers)
      (l : WorkerState am σ) (h : WorkerStep ext wid (s.view wid) l) : Step ext s (s.moved wid l)
  /-- a misspeculation is recorded, at an earlier iteration if there is one already -/
  | record (s : Pipeline am σ) (k : ℤ)
      (h : s.pcb.misspeculationHappened = true → k ≤ s.pcb.misspeculatedIteration) :
      Step ext s { s with pcb := ⟨true, k⟩ }
  /-- the first iteration is committed -/
  | commit (s : Pipeline am σ) : Step ext s { s with goodToGo := true }

/-- As the workers are spawned. -/
structure Starts (s : Pipeline am σ) : Prop where
  phase : ∀ wid, (s.worker wid).phase = .beginning
  currentIter : ∀ wid, (s.worker wid).process.currentIter = 0
  log : ∀ wid, (s.worker wid).process.out.log = []

/-- The iteration of a worker. -/
def iter (s : Pipeline am σ) (wid : Wid) : ℕ := (s.worker wid).process.currentIter

/-- The calls that a worker made. -/
def log (s : Pipeline am σ) (wid : Wid) : List Call := (s.worker wid).process.out.log

def phase (s : Pipeline am σ) (wid : Wid) : Phase := (s.worker wid).phase

/-- The worker sent its frame for the iteration. -/
def Sent (L : StageLayout) (s : Pipeline am σ) (wid : Wid) (i : ℕ) : Prop :=
  i ∈ ownedBetween L wid 0 (s.iter wid)

end Pipeline

variable {ext : Externals am σ} {wid : Wid} {fuel : ℕ} {p q : Process am σ}
  {l l' : WorkerState am σ} {k b : ℤ}

/-! ## `begin_iter` by steps -/

theorem SameFrame.refl : SameFrame p p := ⟨rfl, rfl, id, fun _ => id⟩

theorem SameFrame.trans {r : Process am σ} (h : SameFrame p q) (h' : SameFrame q r) :
    SameFrame p r where
  currentIter := h'.currentIter.trans h.currentIter
  log := h'.log.trans h.log
  goodToGo hg := h'.goodToGo (h.goodToGo hg)
  recorded k hk := h'.recorded k (h.recorded k hk)

theorem proceed_frame (hext : ext.Framed) (iter : ℕ) (p : Process am σ) :
    SameFrame p (proceed ext wid iter p) := by
  have hannounced : SameFrame p (if iter ≠ 0 ∧ ext.layout.getMyStage wid = 0 then
      ext.toTryCommit wid 0xDEADBEEF 0 0
        (ext.updateLinearPredictedValues (ext.updateLoopInvariants p)) else p) := by
    split_ifs
    · have hloop := hext.updateLoopInvariants p
      have hlinear := hext.updateLinearPredictedValues (ext.updateLoopInvariants p)
      exact (hloop.trans hlinear).trans (hext.toTryCommit _ _ _ _ _)
    · exact SameFrame.refl
  simp only [proceed]
  by_cases hrun : runIteration ext.layout wid iter
  · rw [if_pos hrun]
    exact hannounced.trans (hext.resetProtection _ _)
  · rw [if_neg hrun]
    exact hannounced

theorem BeginStep.frame (hext : ext.Framed) (h : BeginStep ext wid l l') :
    SameFrame l.process l'.process := by
  cases h with
  | wait p => exact hext.processReverseCommitQueue wid p
  | receive p => exact hext.processIncomingPackets wid _ p
  | exit | pass => exact SameFrame.refl
  | proceed p => exact proceed_frame hext _ p

/-- Waiting is a number of steps. -/
theorem wait_steps (hext : ext.Framed) : ∀ {fuel : ℕ} {p q : Process am σ}, p.currentIter ≠ 0 →
    waitGoodToGo ext wid fuel p = .ok q →
      ReflTransGen (BeginStep ext wid) ⟨p, .beginning⟩ ⟨q, .beginning⟩ ∧
        q.goodToGo = true ∧ q.currentIter = p.currentIter
  | 0, _, _, _, h => by cases h
  | fuel + 1, p, q, hiter, h => by
    have hcur := (hext.processReverseCommitQueue wid p).currentIter
    unfold waitGoodToGo at h
    split_ifs at h with hg
    · cases h
      exact ⟨.refl, hg, rfl⟩
    · obtain ⟨hsteps, hq, hrest⟩ := wait_steps hext (by rwa [hcur]) h
      have hfirst := @BeginStep.wait _ _ ext wid p hiter (by simpa using hg)
      exact ⟨hsteps.head hfirst, hq, hrest.trans hcur⟩

/-- Getting to `check_misspec` is a number of steps. -/
theorem arrive_steps (hext : ext.Framed) (h : arrive ext wid fuel p = .ok q) :
    ReflTransGen (BeginStep ext wid) ⟨p, .beginning⟩ ⟨q, .arrived⟩ ∧
      q.currentIter = p.currentIter := by
  unfold arrive at h
  by_cases hiter : p.currentIter = 0
  · simp only [hiter, ne_eq, not_true_eq_false, if_false, bind_ok] at h
    obtain rfl := Except.ok.inj h
    have hstep := @BeginStep.receive _ _ ext wid p (Or.inl hiter)
    rw [hiter] at hstep
    exact ⟨.single hstep, (hext.processIncomingPackets wid 0 p).currentIter⟩
  · simp only [ne_eq, hiter, not_false_eq_true, if_true] at h
    cases hwait : waitGoodToGo ext wid fuel p with
    | error e =>
      rw [hwait] at h
      cases h
    | ok r =>
      rw [hwait, bind_ok] at h
      obtain rfl := Except.ok.inj h
      obtain ⟨hsteps, hg, hcur⟩ := wait_steps hext hiter hwait
      have hstep := @BeginStep.receive _ _ ext wid r (Or.inr hg)
      rw [hcur] at hstep
      exact ⟨hsteps.tail hstep, (hext.processIncomingPackets wid _ r).currentIter.trans hcur⟩

/-- What is left of `begin_iter`. -/
def remaining (ext : Externals am σ) (wid : Wid) (fuel : ℕ) (l : WorkerState am σ) :
    Except (Halt (Process am σ)) (Process am σ) :=
  match l.phase with
  | .beginning => beginIter ext wid fuel l.process
  | .arrived => checkMisspec l.process >>= fun p => .ok (proceed ext wid p.currentIter p)
  | .checked => .ok (proceed ext wid l.process.currentIter l.process)
  | .body => .ok l.process
  | .exited => .error (.exit l.process)

/-- A step does a part of it. -/
theorem BeginStep.remaining (hext : ext.Framed) (h : BeginStep ext wid l l') (fuel : ℕ) :
    ∃ fuel', SpecPriv.remaining ext wid fuel' l = SpecPriv.remaining ext wid fuel l' := by
  cases h with
  | wait p hiter hwait =>
    have hcur := (hext.processReverseCommitQueue wid p).currentIter
    refine ⟨fuel + 1, ?_⟩
    simp [SpecPriv.remaining, beginIter, arrive, hiter, hcur, waitGoodToGo, hwait]
  | receive p h =>
    have hcur := (hext.processIncomingPackets wid p.currentIter p).currentIter
    have harrive : arrive ext wid 1 p = .ok (ext.processIncomingPackets wid p.currentIter p) := by
      unfold arrive
      rcases h with h | h
      · simp only [h, ne_eq, not_true_eq_false, if_false, bind_ok]
        rfl
      · have hwait : waitGoodToGo ext wid 1 p = .ok p := if_pos h
        simp only [hwait, ite_self, bind_ok]
        rfl
    refine ⟨1, ?_⟩
    simp only [SpecPriv.remaining, beginIter, harrive, bind_ok, checkMisspec_eq]
    split_ifs
    · rfl
    · simp only [bind_ok, hcur]
      rfl
  | exit p h =>
    refine ⟨0, ?_⟩
    simp only [SpecPriv.remaining, checkMisspec_eq, h, if_true, bind_error]
  | pass p h =>
    refine ⟨0, ?_⟩
    simp only [SpecPriv.remaining, checkMisspec_eq, h, Bool.false_eq_true, if_false, bind_ok]
  | proceed p => exact ⟨0, rfl⟩

theorem remaining_steps (hext : ext.Framed) (h : ReflTransGen (BeginStep ext wid) l l')
    (fuel : ℕ) : ∃ fuel', remaining ext wid fuel' l = remaining ext wid fuel l' := by
  induction h using ReflTransGen.head_induction_on with
  | refl => exact ⟨fuel, rfl⟩
  | head hstep _ ih =>
    obtain ⟨fuel₁, h₁⟩ := ih
    obtain ⟨fuel₂, h₂⟩ := hstep.remaining hext fuel₁
    exact ⟨fuel₂, h₂.trans h₁⟩

/-- A worker that does not get to `check_misspec` is waiting. -/
theorem waitGoodToGo_error : ∀ {fuel : ℕ} {p : Process am σ} {e : Halt (Process am σ)},
    waitGoodToGo ext wid fuel p = .error e → ∃ r, e = .waiting r
  | 0, p, _, h => ⟨p, (Except.error.inj h).symm⟩
  | fuel + 1, p, _, h => by
    unfold waitGoodToGo at h
    split_ifs at h
    exact waitGoodToGo_error h

theorem arrive_error {e : Halt (Process am σ)} (h : arrive ext wid fuel p = .error e) :
    ∃ r, e = .waiting r := by
  unfold arrive at h
  by_cases hiter : p.currentIter = 0
  · simp only [hiter, ne_eq, not_true_eq_false, if_false, bind_ok] at h
    cases h
  · simp only [ne_eq, hiter, not_false_eq_true, if_true] at h
    cases hwait : waitGoodToGo ext wid fuel p with
    | error e' =>
      rw [hwait, bind_error] at h
      obtain rfl := Except.error.inj h
      exact waitGoodToGo_error hwait
    | ok r =>
      rw [hwait] at h
      cases h

theorem beginIter_eq : beginIter ext wid fuel p = arrive ext wid fuel p >>= fun q =>
    if q.misspeculated then .error (.exit q) else .ok (proceed ext wid p.currentIter q) := by
  unfold beginIter
  cases arrive ext wid fuel p with
  | error e => rfl
  | ok q =>
    simp only [bind_ok, checkMisspec_eq]
    cases q.misspeculated <;> rfl

/-- **The steps are those of `begin_iter`**: left alone, a worker gets to the
    body of the loop, or exits, in the states in which `begin_iter` returns or
    exits. -/
theorem beginIter_iff (hext : ext.Framed) (wid : Wid) (p q : Process am σ) :
    ((∃ fuel, beginIter ext wid fuel p = .ok q) ↔
      ReflTransGen (BeginStep ext wid) ⟨p, .beginning⟩ ⟨q, .body⟩) ∧
    ((∃ fuel, beginIter ext wid fuel p = .error (.exit q)) ↔
      ReflTransGen (BeginStep ext wid) ⟨p, .beginning⟩ ⟨q, .exited⟩) := by
  refine ⟨⟨?_, fun h => remaining_steps hext h 0⟩, ⟨?_, fun h => remaining_steps hext h 0⟩⟩
  · rintro ⟨fuel, h⟩
    rw [beginIter_eq] at h
    cases harr : arrive ext wid fuel p with
    | error e =>
      rw [harr] at h
      cases h
    | ok r =>
      obtain ⟨hsteps, hcur⟩ := arrive_steps hext harr
      rw [harr, bind_ok] at h
      split_ifs at h with hm
      obtain rfl := Except.ok.inj h
      rw [← hcur]
      exact (hsteps.tail (.pass r (by simpa using hm))).tail (.proceed r)
  · rintro ⟨fuel, h⟩
    rw [beginIter_eq] at h
    cases harr : arrive ext wid fuel p with
    | error e =>
      obtain ⟨r, rfl⟩ := arrive_error harr
      rw [harr] at h
      cases h
    | ok r =>
      obtain ⟨hsteps, -⟩ := arrive_steps hext harr
      rw [harr, bind_ok] at h
      split_ifs at h with hm
      obtain rfl := Halt.exit.inj (Except.error.inj h)
      exact hsteps.tail (.exit r hm)

theorem Externals.idle_framed : Externals.idle.Framed where
  processReverseCommitQueue _ _ := SameFrame.refl
  processIncomingPackets _ _ _ := SameFrame.refl
  updateLoopInvariants _ := SameFrame.refl
  updateLinearPredictedValues _ := SameFrame.refl
  toTryCommit _ _ _ _ _ := SameFrame.refl
  resetProtection _ _ := SameFrame.refl

theorem Externals.idle_quiet : Externals.idle.Quiet where
  processIncomingPackets _ _ _ := id
  updateLoopInvariants _ := id
  updateLinearPredictedValues _ := id
  toTryCommit _ _ _ _ _ := id
  resetProtection _ _ := id

theorem beginIter_iff_late :
    ((∃ fuel, beginIter Externals.idle 0 fuel Process.late = .ok Process.late) ↔
      ReflTransGen (BeginStep Externals.idle 0) ⟨Process.late, .beginning⟩
        ⟨Process.late, .body⟩) ∧
    ((∃ fuel, beginIter Externals.idle 0 fuel Process.late = .error (.exit Process.late)) ↔
      ReflTransGen (BeginStep Externals.idle 0) ⟨Process.late, .beginning⟩
        ⟨Process.late, .exited⟩) :=
  beginIter_iff Externals.idle_framed 0 Process.late Process.late

/-! ## One step -/

theorem misspeculated_iff : p.misspeculated = true ↔ p.pcb.RecordedBy p.currentIter := by
  rw [Process.misspeculated, Bool.and_eq_true, decide_eq_true_iff, PCB.RecordedBy]

theorem WorkerStep.goodToGo (hext : ext.Framed) (h : WorkerStep ext wid l l')
    (hg : l.process.goodToGo = true) : l'.process.goodToGo = true := by
  cases h with
  | begin _ _ h => exact (h.frame hext).goodToGo hg
  | body _ _ h => exact h.goodToGo hg
  | finish => exact hg

theorem WorkerStep.recorded (hext : ext.Framed) (h : WorkerStep ext wid l l')
    (hk : l.process.pcb.RecordedBy k) : l'.process.pcb.RecordedBy k := by
  cases h with
  | begin _ _ h => exact (h.frame hext).recorded k hk
  | body _ _ h => exact h.recorded k hk
  | finish => exact hk

/-- A worker sends frames of its own, at the end of an iteration. -/
theorem WorkerStep.sends (hext : ext.Framed) (hw : wid.toNat < ext.layout.numWorkers) {a : ℕ}
    {log : List Call} (h : WorkerStep ext wid l l')
    (hl : SendsFrames ext.layout wid a l.process.currentIter log l.process.out.log) :
    SendsFrames ext.layout wid a l'.process.currentIter log l'.process.out.log := by
  cases h with
  | begin _ _ h =>
    have hframe := h.frame hext
    rwa [hframe.currentIter, hframe.log]
  | body _ _ h => rwa [h.currentIter, h.log]
  | finish p hi => exact SendsFrames.endIter hw hi hl

/-- The worker will not end an iteration from `b` on. -/
def WorkerState.Within (b : ℤ) (l : WorkerState am σ) : Prop :=
  l.process.currentIter ≤ b ∧
    (l.phase = .checked ∨ l.phase = .body → (l.process.currentIter : ℤ) < b)

/-- With a misspeculation recorded at or before `b`, it stays so. -/
theorem WorkerStep.within (hext : ext.Framed) (h : WorkerStep ext wid l l')
    (hb : l.process.pcb.RecordedBy b) (hl : l.Within b) : l'.Within b := by
  obtain ⟨hle, hlt⟩ := hl
  cases h with
  | begin _ _ h =>
    have hcur := (h.frame hext).currentIter
    refine ⟨by rwa [hcur], ?_⟩
    rw [hcur]
    cases h with
    | wait | receive | exit => simp
    | pass p hm =>
      -- the check that lets the worker pass
      intro _
      by_contra hge
      have hrec : p.misspeculated = true :=
        misspeculated_iff.2 ⟨hb.1, hb.2.trans (not_lt.1 hge)⟩
      rw [hm] at hrec
      cases hrec
    | proceed p =>
      intro _
      exact hlt (Or.inl rfl)
  | body p p' h =>
    refine ⟨by rw [h.currentIter]; exact hle, ?_⟩
    intro _
    rw [h.currentIter]
    exact hlt (Or.inr rfl)
  | finish p hi =>
    have hp := hlt (Or.inr rfl)
    refine ⟨?_, by simp⟩
    show ((p.currentIter + 1 : ℕ) : ℤ) ≤ b
    push_cast
    exact hp

/-- The worker is in the first iteration, or about to begin the second. -/
def WorkerState.First (l : WorkerState am σ) : Prop :=
  l.process.currentIter = 0 ∨ l.process.currentIter = 1 ∧ l.phase = .beginning

theorem WorkerStep.first (hext : ext.Framed) (h : WorkerStep ext wid l l')
    (hg : l.process.goodToGo = false) (hl : l.First) : l'.First := by
  cases h with
  | begin _ _ h =>
    have hcur := (h.frame hext).currentIter
    rw [WorkerState.First, hcur]
    cases h with
    | wait p =>
      rcases hl with h0 | ⟨h1, -⟩
      · exact Or.inl h0
      · exact Or.inr ⟨h1, rfl⟩
    | receive p h =>
      rcases h with h0 | hg'
      · exact Or.inl h0
      · rw [hg] at hg'
        cases hg'
    | exit | pass | proceed =>
      rcases hl with h0 | ⟨-, hphase⟩
      · exact Or.inl h0
      · cases hphase
  | body p p' h =>
    rcases hl with h0 | ⟨-, hphase⟩
    · exact Or.inl (h.currentIter.trans h0)
    · cases hphase
  | finish p hi =>
    rcases hl with h0 | ⟨-, hphase⟩
    · have h0' : p.currentIter = 0 := h0
      exact Or.inr ⟨congrArg (· + 1) h0', rfl⟩
    · cases hphase

/-- A worker that exited had a reason to. -/
def WorkerState.Justified (l : WorkerState am σ) : Prop :=
  l.phase = .exited → l.process.pcb.RecordedBy l.process.currentIter

theorem WorkerStep.justified (h : WorkerStep ext wid l l') (hl : l.Justified) : l'.Justified := by
  intro hexit
  cases h with
  | begin _ _ h =>
    cases h with
    | wait | receive | pass | proceed => cases hexit
    | exit p hm => exact misspeculated_iff.1 hm
  | body | finish => cases hexit

/-- A worker that can go on: it did not exit, the first iteration is committed,
    and no misspeculation is recorded. -/
structure WorkerState.Free (l : WorkerState am σ) : Prop where
  phase : l.phase ≠ .exited
  goodToGo : l.process.goodToGo = true
  quiet : l.process.pcb.misspeculationHappened = false

theorem proceed_quiet (hquiet : ext.Quiet) (iter : ℕ)
    (hp : p.pcb.misspeculationHappened = false) :
    (proceed ext wid iter p).pcb.misspeculationHappened = false := by
  have hannounced : (if iter ≠ 0 ∧ ext.layout.getMyStage wid = 0 then
      ext.toTryCommit wid 0xDEADBEEF 0 0
        (ext.updateLinearPredictedValues (ext.updateLoopInvariants p))
      else p).pcb.misspeculationHappened = false := by
    split_ifs
    · have hloop := hquiet.updateLoopInvariants p hp
      have hlinear := hquiet.updateLinearPredictedValues _ hloop
      exact hquiet.toTryCommit _ _ _ _ _ hlinear
    · exact hp
  simp only [proceed]
  by_cases hrun : runIteration ext.layout wid iter
  · rw [if_pos hrun]
    exact hquiet.resetProtection _ _ hannounced
  · rw [if_neg hrun]
    exact hannounced

/-- From the body a worker gets to the end of its iteration. -/
theorem free_body (hg : p.goodToGo = true) (hp : p.pcb.misspeculationHappened = false)
    (hi : p.currentIter < 2 ^ 31) : ∃ l', ReflTransGen (WorkerStep ext wid) ⟨p, .body⟩ l' ∧
      l'.Free ∧ l'.process.currentIter = p.currentIter + 1 :=
  ⟨_, .single (.finish p hi), ⟨Phase.noConfusion, hg, hp⟩, rfl⟩

theorem free_checked (hext : ext.Framed) (hquiet : ext.Quiet) (hg : p.goodToGo = true)
    (hp : p.pcb.misspeculationHappened = false) (hi : p.currentIter < 2 ^ 31) :
    ∃ l', ReflTransGen (WorkerStep ext wid) ⟨p, .checked⟩ l' ∧ l'.Free ∧
      l'.process.currentIter = p.currentIter + 1 := by
  have hframe : SameFrame p (proceed ext wid p.currentIter p) := proceed_frame hext p.currentIter p
  have hcur := hframe.currentIter
  obtain ⟨l', hsteps, hfree, hend⟩ := @free_body _ _ ext wid _ (hframe.goodToGo hg)
    (proceed_quiet hquiet _ hp) (by rwa [hcur])
  exact ⟨l', hsteps.head (.begin _ _ (.proceed p)), hfree, by rw [hend, hcur]⟩

theorem free_arrived (hext : ext.Framed) (hquiet : ext.Quiet) (hg : p.goodToGo = true)
    (hp : p.pcb.misspeculationHappened = false) (hi : p.currentIter < 2 ^ 31) :
    ∃ l', ReflTransGen (WorkerStep ext wid) ⟨p, .arrived⟩ l' ∧ l'.Free ∧
      l'.process.currentIter = p.currentIter + 1 := by
  have hpass : p.misspeculated = false := by rw [Process.misspeculated, hp, Bool.false_and]
  obtain ⟨l', hsteps, hfree, hend⟩ := @free_checked _ _ ext wid _ hext hquiet hg hp hi
  exact ⟨l', hsteps.head (.begin _ _ (.pass p hpass)), hfree, hend⟩

/-- A worker that can go on gets to the end of its iteration. -/
theorem WorkerState.Free.ends (hext : ext.Framed) (hquiet : ext.Quiet) (wid : Wid) (h : l.Free)
    (hi : l.process.currentIter < 2 ^ 31) : ∃ l', ReflTransGen (WorkerStep ext wid) l l' ∧
      l'.Free ∧ l'.process.currentIter = l.process.currentIter + 1 := by
  obtain ⟨hphase, hg, hp⟩ := h
  obtain ⟨p, phase⟩ := l
  cases phase with
  | beginning =>
    have hframe := hext.processIncomingPackets wid p.currentIter p
    have hcur := hframe.currentIter
    obtain ⟨l', hsteps, hfree, hend⟩ := @free_arrived _ _ ext wid _ hext hquiet
      (hframe.goodToGo hg) (hquiet.processIncomingPackets wid _ p hp) (by rwa [hcur])
    refine ⟨l', hsteps.head (.begin _ _ (.receive p (Or.inr hg))), hfree, ?_⟩
    rw [hend, hcur]
  | arrived => exact free_arrived hext hquiet hg hp hi
  | checked => exact free_checked hext hquiet hg hp hi
  | body => exact free_body hg hp hi
  | exited => exact absurd rfl hphase

/-- It gets to the end of any later iteration. -/
theorem WorkerState.Free.ends_all (hext : ext.Framed) (hquiet : ext.Quiet) (wid : Wid)
    (h : l.Free) {n : ℕ} (hn : n ≤ 2 ^ 31) : ∃ l', ReflTransGen (WorkerStep ext wid) l l' ∧
      l'.Free ∧ n ≤ l'.process.currentIter := by
  induction n with
  | zero => exact ⟨l, .refl, h, Nat.zero_le _⟩
  | succ n ih =>
    obtain ⟨l₁, hsteps, hfree, hle⟩ := ih (by omega)
    by_cases hdone : n + 1 ≤ l₁.process.currentIter
    · exact ⟨l₁, hsteps, hfree, hdone⟩
    · obtain ⟨l₂, hsteps', hfree', hend⟩ := hfree.ends hext hquiet wid (by omega)
      exact ⟨l₂, hsteps.trans hsteps', hfree', by omega⟩

/-! ## Runs -/

namespace Pipeline

variable {s s' : Pipeline am σ} {i : ℕ}

/-- What a step does to a worker: it is the one that moved, or stays as it is. -/
theorem Step.cases_worker (h : Step ext s s') (wid : Wid) : s'.worker wid = s.worker wid ∨
    wid.toNat < ext.layout.numWorkers ∧ WorkerStep ext wid (s.view wid) (s'.worker wid) ∧
      s'.pcb = (s'.worker wid).process.pcb ∧ s'.goodToGo = (s'.worker wid).process.goodToGo := by
  cases h with
  | worker wid' hw l h =>
    by_cases hwid : wid = wid'
    · subst hwid
      have hl : (s.moved wid l).worker wid = l := by simp only [moved, Function.update_self]
      right
      rw [hl]
      exact ⟨hw, h, rfl, rfl⟩
    · left
      simp only [moved, Function.update_of_ne hwid]
  | record | commit => exact Or.inl rfl

/-- What is recorded stays recorded, at no later iteration. -/
theorem Step.recorded (hext : ext.Framed) (h : Step ext s s') (hk : s.pcb.RecordedBy k) :
    s'.pcb.RecordedBy k := by
  cases h with
  | worker wid hw l h => exact h.recorded hext hk
  | record k' hle => exact ⟨rfl, (hle hk.1).trans hk.2⟩
  | commit => exact hk

theorem Step.goodToGo (hext : ext.Framed) (h : Step ext s s') (hg : s.goodToGo = true) :
    s'.goodToGo = true := by
  cases h with
  | worker wid hw l h => exact h.goodToGo hext hg
  | record => exact hg
  | commit => rfl

/-- Over a run a worker sends the frames of the iterations that it ends and
    owns. -/
theorem sends (hext : ext.Framed) (wid : Wid) (h : ReflTransGen (Step ext) s s') :
    SendsFrames ext.layout wid (s.iter wid) (s'.iter wid) (s.log wid) (s'.log wid) := by
  induction h with
  | refl => exact SendsFrames.refl
  | tail _ hstep ih =>
    rcases hstep.cases_worker wid with hsame | ⟨hw, hmove, -⟩
    · unfold iter log at ih ⊢
      rwa [hsame]
    · exact hmove.sends hext hw ih

theorem recorded (hext : ext.Framed) (h : ReflTransGen (Step ext) s s')
    (hk : s.pcb.RecordedBy k) : s'.pcb.RecordedBy k := by
  induction h with
  | refl => exact hk
  | tail _ hstep ih => exact hstep.recorded hext ih

theorem within (hext : ext.Framed) (wid : Wid) (h : ReflTransGen (Step ext) s s')
    (hb : s.pcb.RecordedBy b) (hl : (s.worker wid).Within b) : (s'.worker wid).Within b := by
  induction h with
  | refl => exact hl
  | tail hrun hstep ih =>
    rcases hstep.cases_worker wid with hsame | ⟨-, hmove, -⟩
    · rwa [hsame]
    · exact hmove.within hext (recorded hext hrun hb) ih

/-- The steps of a worker, as steps of the pipeline. -/
theorem worker_steps (hw : wid.toNat < ext.layout.numWorkers)
    (h : ReflTransGen (WorkerStep ext wid) (s.view wid) l) : ∃ s', ReflTransGen (Step ext) s s' ∧
      s'.view wid = l ∧ ∀ wid' ≠ wid, s'.worker wid' = s.worker wid' := by
  induction h with
  | refl => exact ⟨s, .refl, rfl, fun _ _ => rfl⟩
  | @tail l₁ l₂ _ hstep ih =>
    obtain ⟨s₁, hsteps, hview, hother⟩ := ih
    rw [← hview] at hstep
    refine ⟨s₁.moved wid l₂, hsteps.tail (.worker s₁ wid hw l₂ hstep), ?_, ?_⟩
    · simp only [view, moved, Function.update_self]
    · intro wid' hne
      rw [← hother wid' hne]
      simp only [moved, Function.update_of_ne hne]

/-- **A stage sends the frame of an iteration once.**  In every state that the
    pipeline can get to, a worker has sent a frame for each iteration that it
    owns and ended, in order, and nothing else.  Of the workers of a stage at
    most one has sent the frame of an iteration, and one has if all of them
    have ended it. -/
theorem eoi_once (hext : ext.Framed) (hs : s.Starts) (h : ReflTransGen (Step ext) s s') :
    (∀ wid, ∃ frame : ℕ → List Call,
      (∀ i, s'.Sent ext.layout wid i → IsFrame wid i (frame i)) ∧
      s'.log wid = (ownedBetween ext.layout wid 0 (s'.iter wid)).flatMap frame) ∧
    ∀ st < ext.layout.numStages, ∀ i < 2 ^ 31,
      (∀ wid wid', ext.layout.IsWorkerOf st wid → ext.layout.IsWorkerOf st wid' →
        s'.Sent ext.layout wid i → s'.Sent ext.layout wid' i → wid = wid') ∧
      ((∀ wid, ext.layout.IsWorkerOf st wid → i < s'.iter wid) →
        ∃ wid, ext.layout.IsWorkerOf st wid ∧ s'.Sent ext.layout wid i) := by
  refine ⟨?_, ?_⟩
  · intro wid
    obtain ⟨-, frame, hframe, hlog⟩ := sends hext wid h
    have hiter : s.iter wid = 0 := hs.currentIter wid
    have hnil : s.log wid = [] := hs.log wid
    rw [hiter] at hframe hlog
    rw [hnil, List.nil_append] at hlog
    exact ⟨frame, hframe, hlog⟩
  · intro st hst i hi
    refine ⟨?_, ?_⟩
    · intro wid wid' hw hw' hsent hsent'
      exact StageLayout.owner_inj hw hw' hi (mem_ownedBetween.1 hsent).2
        (mem_ownedBetween.1 hsent').2
    · intro hall
      obtain ⟨wid, hw, hrun⟩ := StageLayout.exists_owner hst hi
      exact ⟨wid, hw, mem_ownedBetween.2 ⟨⟨Nat.zero_le i, hall wid hw⟩, hrun⟩⟩

/-- Three idle workers, as they are spawned. -/
def idle : Pipeline AddressMap.shifted Unit where
  worker _ := ⟨{ Process.late with currentIter := 0, pcb := ⟨false, -1⟩, goodToGo := false },
    .beginning⟩
  pcb := ⟨false, -1⟩
  goodToGo := false

theorem idle_starts : idle.Starts := ⟨fun _ => rfl, fun _ => rfl, fun _ => rfl⟩

/-- The first worker goes through the first iteration. -/
theorem idle_run : ∃ s, ReflTransGen (Step Externals.idle) idle s ∧ s.iter 0 = 1 ∧
    s.goodToGo = false ∧ s.pcb.misspeculationHappened = false := by
  have hreceive := @BeginStep.receive _ _ Externals.idle 0 (idle.view 0).process
    (Or.inl rfl)
  have hpass := @BeginStep.pass _ _ Externals.idle 0 (idle.view 0).process rfl
  have hproceed := @BeginStep.proceed _ _ Externals.idle 0 (idle.view 0).process
  have hfinish := @WorkerStep.finish _ _ Externals.idle 0 (idle.view 0).process
    (show (0 : ℕ) < 2 ^ 31 by decide)
  have hsteps := (((ReflTransGen.single (WorkerStep.begin _ _ hreceive)).tail
    (WorkerStep.begin _ _ hpass)).tail (WorkerStep.begin _ _ hproceed)).tail hfinish
  obtain ⟨s, hrun, hview, -⟩ := worker_steps (s := idle) (by decide) hsteps
  refine ⟨s, hrun, ?_, ?_, ?_⟩
  · exact congrArg (fun l => l.process.currentIter) hview
  · exact congrArg (fun l => l.process.goodToGo) hview
  · exact congrArg (fun l => l.process.pcb.misspeculationHappened) hview

theorem eoi_once_idle : ∃ s, ReflTransGen (Step Externals.idle) idle s ∧ s.iter 0 = 1 ∧
    (∀ wid, ∃ frame : ℕ → List Call,
      (∀ i, s.Sent Externals.idle.layout wid i → IsFrame wid i (frame i)) ∧
      s.log wid = (ownedBetween Externals.idle.layout wid 0 (s.iter wid)).flatMap frame) ∧
    ∀ st < Externals.idle.layout.numStages, ∀ i < 2 ^ 31,
      (∀ wid wid', Externals.idle.layout.IsWorkerOf st wid →
        Externals.idle.layout.IsWorkerOf st wid' →
        s.Sent Externals.idle.layout wid i → s.Sent Externals.idle.layout wid' i →
          wid = wid') ∧
      ((∀ wid, Externals.idle.layout.IsWorkerOf st wid → i < s.iter wid) →
        ∃ wid, Externals.idle.layout.IsWorkerOf st wid ∧
          s.Sent Externals.idle.layout wid i) := by
  obtain ⟨s, hrun, hiter, -⟩ := idle_run
  exact ⟨s, hrun, hiter, eoi_once Externals.idle_framed idle_starts hrun⟩

/-- **A recorded misspeculation stops the pipeline.**  After it is recorded at
    iteration `k`, a worker that has not passed its check yet sends the frames
    of iterations before `k` only; one that has passed it also may end the
    iteration that it is in.  No worker gets into the body of another iteration
    from `k` on. -/
theorem misspec_stops (hext : ext.Framed) (hk : s.pcb.RecordedBy k)
    (h : ReflTransGen (Step ext) s s') (wid : Wid) :
    (∃ frame : ℕ → List Call,
      (∀ i ∈ ownedBetween ext.layout wid (s.iter wid) (s'.iter wid), IsFrame wid i (frame i) ∧
        ((i : ℤ) < k ∨ i = s.iter wid ∧ (s.phase wid = .checked ∨ s.phase wid = .body))) ∧
      s'.log wid = s.log wid ++
        (ownedBetween ext.layout wid (s.iter wid) (s'.iter wid)).flatMap frame) ∧
    (s'.phase wid = .checked ∨ s'.phase wid = .body → (s'.iter wid : ℤ) < k ∨
      s'.iter wid = s.iter wid ∧ (s.phase wid = .checked ∨ s.phase wid = .body)) := by
  obtain ⟨hle, frame, hframe, hlog⟩ := sends hext wid h
  -- the first iteration that the worker cannot end any more
  obtain ⟨b, hkb, hwithin, hbound⟩ : ∃ b : ℤ, k ≤ b ∧ (s.worker wid).Within b ∧
      ∀ i : ℕ, s.iter wid ≤ i → (i : ℤ) < b →
        (i : ℤ) < k ∨ i = s.iter wid ∧ (s.phase wid = .checked ∨ s.phase wid = .body) := by
    by_cases hphase : s.phase wid = .checked ∨ s.phase wid = .body
    · refine ⟨max k (s.iter wid + 1), le_max_left _ _, ⟨?_, ?_⟩, ?_⟩
      · exact (by omega : (s.iter wid : ℤ) ≤ s.iter wid + 1).trans (le_max_right _ _)
      · intro _
        exact (by omega : (s.iter wid : ℤ) < s.iter wid + 1).trans_le (le_max_right _ _)
      · intro i hi hib
        rcases lt_max_iff.1 hib with hik | hii
        · exact Or.inl hik
        · exact Or.inr ⟨by omega, hphase⟩
    · refine ⟨max k (s.iter wid), le_max_left _ _, ⟨le_max_right _ _, ?_⟩, ?_⟩
      · intro hp
        exact absurd hp hphase
      · intro i hi hib
        rcases lt_max_iff.1 hib with hik | hii
        · exact Or.inl hik
        · omega
  have hwithin' := within hext wid h ⟨hk.1, hk.2.trans hkb⟩ hwithin
  refine ⟨⟨frame, ?_, hlog⟩, ?_⟩
  · intro i hi
    obtain ⟨hlo, hhi⟩ := (mem_ownedBetween.1 hi).1
    refine ⟨hframe i hi, hbound i hlo ?_⟩
    have hend : (s'.iter wid : ℤ) ≤ b := hwithin'.1
    omega
  · intro hphase
    exact hbound _ hle (hwithin'.2 hphase)

/-- The first worker exits in the first iteration. -/
theorem misspec_stops_idle :
    ∃ s, ReflTransGen (Step Externals.idle) { idle with pcb := ⟨true, 0⟩ } s ∧
    s.phase 0 = .exited ∧
    (∃ frame : ℕ → List Call,
      (∀ i ∈ ownedBetween Externals.idle.layout 0 0 (s.iter 0), IsFrame 0 i (frame i) ∧
        ((i : ℤ) < 0 ∨ i = 0 ∧ (idle.phase 0 = .checked ∨ idle.phase 0 = .body))) ∧
      s.log 0 = idle.log 0 ++
        (ownedBetween Externals.idle.layout 0 0 (s.iter 0)).flatMap frame) ∧
    (s.phase 0 = .checked ∨ s.phase 0 = .body → (s.iter 0 : ℤ) < 0 ∨
      s.iter 0 = 0 ∧ (idle.phase 0 = .checked ∨ idle.phase 0 = .body)) := by
  have hreceive := @BeginStep.receive _ _ Externals.idle 0
    (({ idle with pcb := ⟨true, 0⟩ } : Pipeline AddressMap.shifted Unit).view 0).process
    (Or.inl rfl)
  have hexit := @BeginStep.exit _ _ Externals.idle 0
    (({ idle with pcb := ⟨true, 0⟩ } : Pipeline AddressMap.shifted Unit).view 0).process rfl
  have hsteps := (ReflTransGen.single (WorkerStep.begin _ _ hreceive)).tail
    (WorkerStep.begin _ _ hexit)
  obtain ⟨s, hrun, hview, -⟩ :=
    worker_steps (s := { idle with pcb := ⟨true, 0⟩ }) (by decide) hsteps
  refine ⟨s, hrun, congrArg WorkerState.phase hview, ?_⟩
  exact misspec_stops Externals.idle_framed (k := 0) ⟨rfl, le_rfl⟩ hrun 0

theorem first (hext : ext.Framed) (hs : s.Starts) (wid : Wid)
    (h : ReflTransGen (Step ext) s s') (hg : s'.goodToGo = false) : (s'.worker wid).First := by
  induction h with
  | refl => exact Or.inl (hs.currentIter wid)
  | @tail s₁ s₂ _ hstep ih =>
    have hg₁ : s₁.goodToGo = false := by
      by_contra hne
      rw [hstep.goodToGo hext (by simpa using hne)] at hg
      cases hg
    rcases hstep.cases_worker wid with hsame | ⟨-, hmove, -⟩
    · rw [hsame]
      exact ih hg₁
    · exact hmove.first hext hg₁ (ih hg₁)

/-- **The first iteration comes first.**  As long as it is not committed, no
    worker is beyond the beginning of the second iteration, and all that was
    forwarded is for the first one. -/
theorem firstIter_first (hext : ext.Framed) (hs : s.Starts) (h : ReflTransGen (Step ext) s s')
    (hg : s'.goodToGo = false) (wid : Wid) :
    (s'.iter wid = 0 ∨ s'.iter wid = 1 ∧ s'.phase wid = .beginning) ∧
      ∀ c ∈ s'.log wid, ∀ wid' i, c.ForwardsFor wid' i → i = 0 := by
  have hfirst := first hext hs wid h hg
  refine ⟨hfirst, ?_⟩
  obtain ⟨-, frame, hframe, hlog⟩ := sends hext wid h
  have hiter : s.iter wid = 0 := hs.currentIter wid
  have hnil : s.log wid = [] := hs.log wid
  rw [hiter] at hframe hlog
  rw [hnil, List.nil_append] at hlog
  intro c hc wid' i hfwd
  rw [hlog, List.mem_flatMap] at hc
  obtain ⟨n, hn, hcn⟩ := hc
  have hn0 : n = 0 := by
    have hlt : n < s'.iter wid := (mem_ownedBetween.1 hn).1.2
    rcases hfirst with h0 | ⟨h1, -⟩
    · have h0' : s'.iter wid = 0 := h0
      omega
    · have h1' : s'.iter wid = 1 := h1
      omega
  rw [← hn0]
  exact (hframe n hn).forwardsFor hcn hfwd

theorem firstIter_first_idle : ∃ s, ReflTransGen (Step Externals.idle) idle s ∧ s.iter 0 = 1 ∧
    (s.iter 0 = 0 ∨ s.iter 0 = 1 ∧ s.phase 0 = .beginning) ∧
      ∀ c ∈ s.log 0, ∀ wid' i, c.ForwardsFor wid' i → i = 0 := by
  obtain ⟨s, hrun, hiter, hg, -⟩ := idle_run
  exact ⟨s, hrun, hiter, firstIter_first Externals.idle_framed idle_starts hrun hg 0⟩

theorem justified (hext : ext.Framed) (hs : s.Starts) (wid : Wid)
    (h : ReflTransGen (Step ext) s s') :
    s'.phase wid = .exited → s'.pcb.RecordedBy (s'.iter wid) := by
  induction h with
  | refl =>
    intro hexit
    rw [phase, hs.phase] at hexit
    cases hexit
  | tail _ hstep ih =>
    rcases hstep.cases_worker wid with hsame | ⟨-, hmove, hpcb, -⟩
    · unfold phase iter at ih ⊢
      rw [hsame]
      intro hexit
      exact hstep.recorded hext (ih hexit)
    · rw [hpcb]
      exact hmove.justified ih

/-- Some workers can be brought to the end of an iteration, one after the other. -/
theorem workers_end (hext : ext.Framed) (hquiet : ext.Quiet) {n : ℕ} (hn : n ≤ 2 ^ 31) :
    ∀ (wids : List Wid) {s : Pipeline am σ}, wids.Nodup →
      (∀ wid ∈ wids, wid.toNat < ext.layout.numWorkers) → (∀ wid ∈ wids, (s.view wid).Free) →
      s.goodToGo = true → s.pcb.misspeculationHappened = false →
        ∃ s', ReflTransGen (Step ext) s s' ∧ s'.pcb.misspeculationHappened = false ∧
          (∀ wid ∈ wids, n ≤ s'.iter wid) ∧ ∀ wid ∉ wids, s'.worker wid = s.worker wid
  | [], s, _, _, _, _, hp => ⟨s, .refl, hp, by simp, fun _ _ => rfl⟩
  | wid :: wids, s, hnd, hw, hfree, hg, hp => by
    obtain ⟨hwid, hnd⟩ := List.nodup_cons.1 hnd
    obtain ⟨l, hl, hlfree, hend⟩ := (hfree wid List.mem_cons_self).ends_all hext hquiet wid hn
    obtain ⟨s₁, hsteps, hview, hother⟩ := worker_steps (hw wid List.mem_cons_self) hl
    have hpcb : s₁.pcb = l.process.pcb := by rw [← hview]; rfl
    have hgood : s₁.goodToGo = l.process.goodToGo := by rw [← hview]; rfl
    have hiter : s₁.iter wid = l.process.currentIter := by rw [← hview]; rfl
    have hrest : ∀ wid' ∈ wids, (s₁.view wid').Free := by
      intro wid' hwid'
      have hne : wid' ≠ wid := by
        rintro rfl
        exact hwid hwid'
      refine ⟨?_, hgood.trans hlfree.goodToGo, ?_⟩
      · show (s₁.worker wid').phase ≠ .exited
        rw [hother wid' hne]
        exact (hfree wid' (List.mem_cons_of_mem wid hwid')).phase
      · show s₁.pcb.misspeculationHappened = false
        rw [hpcb]
        exact hlfree.quiet
    obtain ⟨s₂, hsteps', hp₂, hends, hsame⟩ := workers_end hext hquiet hn wids hnd
      (fun wid' h => hw wid' (List.mem_cons_of_mem wid h)) hrest (hgood.trans hlfree.goodToGo)
      (by rw [hpcb]; exact hlfree.quiet)
    refine ⟨s₂, hsteps.trans hsteps', hp₂, ?_, ?_⟩
    · intro wid' hwid'
      rcases List.mem_cons.1 hwid' with rfl | hwid'
      · rw [iter, hsame wid' hwid, ← iter, hiter]
        exact hend
      · exact hends wid' hwid'
    · intro wid' hwid'
      rw [List.mem_cons, not_or] at hwid'
      rw [hsame wid' hwid'.2, hother wid' hwid'.1]

/-- The ids of all workers. -/
def wids (L : StageLayout) : List Wid := (List.range L.numWorkers).map UInt32.ofNat

theorem mem_wids (L : StageLayout) : wid ∈ wids L ↔ wid.toNat < L.numWorkers := by
  have hmax := L.numWorkers_le
  constructor
  · intro h
    obtain ⟨n, hn, rfl⟩ := List.mem_map.1 h
    rw [List.mem_range] at hn
    rwa [StageLayout.toNat_iteration (by omega)]
  · intro h
    refine List.mem_map.2 ⟨wid.toNat, List.mem_range.2 h, ?_⟩
    exact UInt32.toNat_inj.1 (StageLayout.toNat_iteration (by omega))

theorem wids_nodup (L : StageLayout) : (wids L).Nodup := by
  have hmax := L.numWorkers_le
  refine List.Nodup.map_on ?_ List.nodup_range
  intro n hn n' hn' h
  rw [List.mem_range] at hn hn'
  have htoNat := congrArg UInt32.toNat h
  rwa [StageLayout.toNat_iteration (by omega), StageLayout.toNat_iteration (by omega)] at htoNat

/-- **Without a misspeculation nobody stops.**  In every state that the
    pipeline can get to with none recorded no worker has exited, and if the
    runtime records none itself, the pipeline can go on until all workers have
    ended any number of iterations. -/
theorem can_finish (hext : ext.Framed) (hs : s.Starts)
    (h : ReflTransGen (Step ext) s s') (hp : s'.pcb.misspeculationHappened = false) :
    (∀ wid, s'.phase wid ≠ .exited) ∧
      (ext.Quiet → ∀ n ≤ 2 ^ 31, ∃ s'', ReflTransGen (Step ext) s' s'' ∧
        s''.pcb.misspeculationHappened = false ∧
        ∀ wid, wid.toNat < ext.layout.numWorkers → n ≤ s''.iter wid) := by
  have hphase : ∀ wid, s'.phase wid ≠ .exited := by
    intro wid hexit
    have hrec := (justified hext hs wid h hexit).1
    rw [hp] at hrec
    cases hrec
  refine ⟨hphase, ?_⟩
  intro hquiet n hn
  have hfree : ∀ wid ∈ wids ext.layout,
      (({ s' with goodToGo := true } : Pipeline am σ).view wid).Free := by
    intro wid _
    exact ⟨hphase wid, rfl, hp⟩
  obtain ⟨s'', hsteps, hp', hends, -⟩ := workers_end hext hquiet hn (wids ext.layout)
    (wids_nodup ext.layout) (fun _ => (mem_wids ext.layout).1) hfree rfl hp
  refine ⟨s'', hsteps.head (.commit s'), hp', ?_⟩
  intro wid hw
  exact hends wid ((mem_wids ext.layout).2 hw)

theorem can_finish_idle : ∃ s, ReflTransGen (Step Externals.idle) idle s ∧ s.iter 0 = 1 ∧
    (∀ wid, s.phase wid ≠ .exited) ∧
      ∃ s', ReflTransGen (Step Externals.idle) s s' ∧ s'.pcb.misspeculationHappened = false ∧
        ∀ wid, wid.toNat < Externals.idle.layout.numWorkers → 5 ≤ s'.iter wid := by
  obtain ⟨s, hrun, hiter, -, hp⟩ := idle_run
  obtain ⟨hphase, hfinish⟩ := can_finish Externals.idle_framed idle_starts hrun hp
  exact ⟨s, hrun, hiter, hphase, hfinish Externals.idle_quiet 5 (by decide)⟩

end Pipeline

end SpecPriv
