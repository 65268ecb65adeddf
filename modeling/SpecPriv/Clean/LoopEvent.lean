/-
  The cleaned loop events, compared with the original ones.

  The cleaned version has no profiling and no debug output, `forward_pair`
  contains the text of `buffer_ro_page`, and `check_misspec` reads what it
  tested in the original version and tests nothing.  `run_iteration`,
  `clear_read` and `forward_ro_page` are the same text in both.

  * `forwardPair_clean`, `endIter_clean`: inlining changes nothing;
  * `refines_iff`: the cleaned version does what the original one does, from
    every state but those from which a worker arrives at `check_misspec` with
    a misspeculation recorded at or before its iteration.  There the original
    exits, and the cleaned version goes on.
-/
import SpecPriv.Orig.BeginIter

namespace SpecPriv

namespace Clean

open Loop

variable {am : AddressMap} {σ : Type}

def forwardPair (nonzero : ℕ) (wid : Wid) (iter : ℕ) (mem shadow : ℕ) (check : Check)
    (s : Sender) : Sender :=
  if nonzero > 8 then
    let o := forwardPage wid iter (.page mem (snapshot s.mem mem)) check s.out
    let o := forwardPage wid iter (.page shadow (snapshot s.mem shadow)) check o
    ⟨setZeroPage s.mem shadow, o⟩
  else if nonzero ≠ 0 then
    let o := forLoop 0 pageSize 8 (forwardWord wid iter s.mem mem shadow check) s.out
    ⟨setZeroPage s.mem shadow, o⟩
  else
    let o :=
      if s.out.roPageBuffer.index = roEntryBufferSize then
        let o := forwardRoPage wid iter s.out
        { o with roPageBuffer := { o.roPageBuffer with index := 0 } }
      else s.out
    let index := o.roPageBuffer.index
    let o := { o with roPageBuffer := ⟨o.roPageBuffer.data.setIfInBounds index mem, index + 1⟩ }
    ⟨setZeroPage s.mem shadow, o⟩

/-- The body of the three loops. -/
def forwardShadow (wid : Wid) (iter : ℕ) (s : Sender) (shadow : am.Shadow) : Sender :=
  let a := shadow.1.addr
  if touched s.mem a then
    let m := clearTouched s.mem a
    if isZeroPage m a then { s with mem := m }
    else
      let r := clearRead a m
      forwardPair r.2 wid iter (am.getOriginalOf shadow).addr a .required { s with mem := r.1 }
  else s

def forwardShadows (wid : Wid) (iter : ℕ) (shadows : List am.Shadow) (s : Sender) : Sender :=
  shadows.foldl (forwardShadow wid iter) s

def endIter (rt : Runtime) (wid : Wid) (w : Worker am) : Worker am :=
  let iter := w.currentIter
  let w :=
    if runIteration rt.layout wid iter then
      let mem := rt.updateShadowForLoopInvariants w.mem
      let mem := rt.updateShadowForLinearPredictedValues mem
      let buf := w.verMallocBuffer
      let out := w.out.call
        (.broadcastMallocChunk wid buf.elem (buf.index * sizeofVerMallocInstance))
      let s := forwardShadows wid iter w.shadowGlobals ⟨mem, out⟩
      let s := forwardShadows wid iter w.shadowStacks s
      let s := forwardShadows wid iter w.shadowHeaps s
      let s := { s with out := forwardRoPage wid iter s.out }
      { w with toSender := s, verMallocBuffer := ⟨fun _ => ⟨0, 0, 0⟩, 0⟩ }
    else w
  let w :=
    if eoiTest rt.layout wid iter then
      { w with out := w.out.call (.broadcastEoi wid 0xDEADBEEF 0 0) }
    else w
  { w with currentIter := iter + 1 }

/-- The three values that are read are not used. -/
def checkMisspec (p : Process am σ) : Except (Halt (Process am σ)) (Process am σ) := .ok p

def beginIter (ext : Externals am σ) (wid : Wid) (fuel : ℕ) (p : Process am σ) :
    Except (Halt (Process am σ)) (Process am σ) := do
  let iter := p.currentIter
  let p ← arrive ext wid fuel p
  let p ← checkMisspec p
  return proceed ext wid iter p

/-- `begin_iter` followed by `end_iter`. -/
def iteration (ext : Externals am σ) (wid : Wid) (fuel : ℕ) (p : Process am σ) :
    Except (Halt (Process am σ)) (Process am σ) := do
  let p ← beginIter ext wid fuel p
  return { p with toWorker := endIter ext.toRuntime wid p.toWorker }

end Clean

open Stopping

/-! ## Inlining -/

variable {am : AddressMap} {σ : Type} {ext : Externals am σ} {wid : Wid} {fuel : ℕ}
  {p q : Process am σ}

theorem forwardPair_clean : Clean.forwardPair = forwardPair := by
  funext nonzero wid iter mem shadow check s
  unfold Clean.forwardPair forwardPair bufferRoPage makeRoom
  rfl

theorem forwardShadow_clean (wid : Wid) (iter : ℕ) :
    @Clean.forwardShadow am wid iter = forwardShadow wid iter := by
  funext s shadow
  rw [Clean.forwardShadow, forwardPair_clean, forwardShadow]

theorem endIter_clean (rt : Runtime) (wid : Wid) (w : Worker am) :
    Clean.endIter rt wid w = endIter rt wid w := by
  simp only [Clean.endIter, Clean.forwardShadows, forwardShadow_clean]
  rfl

/-- The cleaned version of an iteration finishes whenever it gets to
    `check_misspec`. -/
theorem iteration_clean : Clean.iteration ext wid fuel p =
    arrive ext wid fuel p >>= fun q => .ok (finish ext wid p.currentIter q) := by
  unfold Clean.iteration Clean.beginIter
  cases arrive ext wid fuel p with
  | error h => rfl
  | ok q =>
    simp only [endIter_clean]
    rfl

/-! ## Refinement -/

/-- What a process has sent when it returns or stops. -/
def sentBy : Except (Halt (Process am σ)) (Process am σ) → List Call
  | .ok p => p.out.log
  | .error (.exit p) => p.out.log
  | .error (.waiting p) => p.out.log

/-- The cleaned loop events refine the original ones from the state `p`:
    whatever the fuel, they end in the same way, with the same messages sent
    and the same state.  In particular a worker that arrives at
    `check_misspec` with a misspeculation recorded at or before its iteration
    sends nothing more. -/
structure Refines (ext : Externals am σ) (wid : Wid) (p : Process am σ) : Prop where
  same : ∀ fuel, Clean.iteration ext wid fuel p = iteration ext wid fuel p
  silent : ∀ fuel q, arrive ext wid fuel p = .ok q → q.misspeculated = true →
    sentBy (Clean.iteration ext wid fuel p) = q.out.log

/-- Where the original version exits, the cleaned one does not. -/
theorem Refines.not_misspeculated (h : Refines ext wid p) (harr : arrive ext wid fuel p = .ok q) :
    q.misspeculated = false := by
  have hsame := h.same fuel
  rw [iteration_clean, iteration_eq, harr, bind_ok, bind_ok] at hsame
  cases hm : q.misspeculated with
  | false => rfl
  | true =>
    rw [hm] at hsame
    cases hsame

/-- **When the cleaned loop events refine the original ones**: from exactly the
    states from which no worker gets to `check_misspec` with a misspeculation
    recorded at or before its iteration. -/
theorem refines_iff (ext : Externals am σ) (wid : Wid) (p : Process am σ) :
    Refines ext wid p ↔
      ∀ fuel q, arrive ext wid fuel p = .ok q → q.misspeculated = false := by
  constructor
  · intro h fuel q harr
    exact h.not_misspeculated harr
  · intro h
    refine ⟨?_, ?_⟩
    · intro fuel
      rw [iteration_clean, iteration_eq]
      cases harr : arrive ext wid fuel p with
      | error e => rfl
      | ok q =>
        rw [bind_ok, bind_ok, h fuel q harr]
        rfl
    · intro fuel q harr hm
      rw [h fuel q harr] at hm
      cases hm

/-- A runtime that does nothing, for one worker before a stage of two. -/
def Externals.idle : Externals AddressMap.shifted Unit where
  layout := StageLayout.oneThenTwo
  updateShadowForLoopInvariants := id
  updateShadowForLinearPredictedValues := id
  processReverseCommitQueue _ := id
  processIncomingPackets _ _ := id
  updateLoopInvariants := id
  updateLinearPredictedValues := id
  toTryCommit _ _ _ _ := id
  resetProtection _ := id

/-- Worker `0` at iteration `1`, with a misspeculation recorded at iteration `0`. -/
def Process.late : Process AddressMap.shifted Unit where
  mem _ := 0#8
  out := .init
  shadowGlobals := []
  shadowStacks := []
  shadowHeaps := []
  verMallocBuffer := ⟨fun _ => ⟨0, 0, 0⟩, 0⟩
  currentIter := 1
  pcb := ⟨true, 0⟩
  goodToGo := true
  rest := ()

/-- The original version exits; the cleaned one ends the iteration. -/
theorem not_refines_late : ¬ Refines .idle 0 Process.late := by
  intro h
  have harr : arrive Externals.idle 0 1 Process.late = .ok Process.late := rfl
  have hfalse := h.not_misspeculated harr
  cases hfalse

end SpecPriv
