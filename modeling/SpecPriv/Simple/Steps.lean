/-
  The calls of the simplified program, step by step.

  Whatever a call does to the tallies, it takes a packet from a queue that has
  one, it puts a packet into a queue with space, or it makes room in a full
  queue and puts a packet there (`Step`).  What a step keeps, every run of
  calls keeps.

  * `runProgram_steps`: a run of calls is a sequence of steps;
  * `runProgram_returns`: from empty tables every run of calls returns;
  * `traffic_oneWay`: the queues to the commit side are never consumed from,
    and the queues from it are never fed.
-/
import Mathlib.Logic.Relation
import SpecPriv.Simple.Drain

namespace SpecPriv.Simple

open Loop Relation

/-- The queues that a call may consume from. -/
def Tally.Taken : Tally → Prop
  | .ucvf _ _ | .reverse _ => True
  | .queue _ _ | .commit _ => False

/-- The queues that a call may produce into. -/
def Tally.Fed : Tally → Prop
  | .ucvf _ _ | .queue _ _ | .commit _ => True
  | .reverse _ => False

inductive Step : State → State → Prop
  | charge (n : ℕ) (st : State) : Step st (st.charge n)
  | take (q : Tally) (st : State) (hq : q.Taken) (h : st.tally q ≠ 0) :
      Step st (st.store q (st.tally q - 1))
  | put (q : Tally) (st : State) (hq : q.Fed) (h : q.Capped → st.tally q < queueLimit) :
      Step st (st.store q (st.tally q + 1))
  | evict (q : Tally) (st : State) (hq : q.Fed) (h : q.Capped → queueLimit ≤ st.tally q) :
      Step st (queueProduce q (st.store q (st.tally q - 2)))
  /-- a change of the other data -/
  | rest (st st' : State) (ht : st'.tally = st.tally) (htr : st'.trace = st.trace) : Step st st'

abbrev Steps : State → State → Prop := ReflTransGen Step

/-! ## Calls -/

/-- The calls that are made between the beginning and the end of an
    invocation, and those that `end_iter` makes. -/
inductive ProgramCall
  | forwardPacket (wid shadowSize myStage isMyIter : ℤ)
  | forwardPair (wid shadowSize myStage isMyIter : ℤ)
  | beginIter (wid iter myStage isMyIter : ℤ)
  | busyWait (wid : ℤ)
  | endIter (wid myStage isMyIter : ℤ)

def ProgramCall.exec (c : Config) (fuel : ℕ) (st : State) : ProgramCall → Option State
  | forwardPacket wid shadowSize myStage isMyIter =>
    some (Simple.forwardPacket c wid shadowSize myStage isMyIter st)
  | forwardPair wid shadowSize myStage isMyIter =>
    some (Simple.forwardPair c wid shadowSize myStage isMyIter st)
  | beginIter wid iter myStage isMyIter => Simple.beginIter c fuel wid iter myStage isMyIter st
  | busyWait wid => Simple.busyWait wid fuel st
  | endIter wid myStage isMyIter => some (Simple.endIter c wid myStage isMyIter st)

/-- Make the calls one after the other. -/
def runProgram (c : Config) (fuel : ℕ) (calls : List ProgramCall) (st : State) : Option State :=
  calls.foldlM (ProgramCall.exec c fuel) st

variable {c : Config} {st st' : State} {q : Tally} {fuel : ℕ}

/-! ## Steps of the parts -/

namespace Steps

theorem charge (n : ℕ) (st : State) : Steps st (st.charge n) := .single (.charge n st)

theorem chargeAll (st : State) : ∀ cs : List ℕ, Steps st (st.chargeAll cs)
  | [] => .single (.rest _ _ rfl rfl)
  | n :: cs => by
    have hcs := (chargeAll st cs).tail (.charge n _)
    rwa [State.charge_chargeAll] at hcs

theorem forLoop {start stop step : ℕ} {body : ℕ → State → State}
    (h : ∀ i st, Steps st (body i st)) (st : State) :
    Steps st (Loop.forLoop start stop step body st) :=
  forN_induct (fun _ st' => Steps st st') .refl fun _ _ _ hst => hst.trans (h _ _)

end Steps

theorem queueConsume_steps (hq : q.Taken) (st : State) : Steps st (queueConsume q st).2 := by
  rcases queueConsume_cases q st with ⟨-, heq⟩ | ⟨hne, type, -, heq⟩
  · rw [heq]
    exact Steps.charge 6 st
  · rw [heq]
    exact (Steps.charge 6 st).tail (.take q (st.charge 6) hq hne)

theorem queueProduce_steps (hq : q.Fed) (h : q.Capped → st.tally q < queueLimit) :
    Steps st (queueProduce q st) :=
  (Steps.charge 6 st).tail (.put q (st.charge 6) hq h)

theorem receivePacket_steps (hq : q.Taken) (wid : ℤ) (st : State) :
    Steps st (receivePacket q wid st).2 := by
  have hone := queueConsume_steps hq st
  have htwo := hone.trans (queueConsume_steps hq (queueConsume q st).2)
  unfold receivePacket
  generalize queueConsume q st = r at hone htwo ⊢
  obtain ⟨type, st₁⟩ := r
  cases type with
  | normal => exact (htwo.trans (Steps.charge 1 _)).trans (Steps.charge 1 _)
  | super =>
    dsimp only
    split_ifs
    · have hro : Steps st { st₁ with numRoPages := st₁.numRoPages - 1 } :=
        hone.tail (.rest _ _ rfl rfl)
      exact hro.trans (Steps.charge 1 _)
    · rw [updatePage_eq]
      exact htwo.trans (Steps.chargeAll _ _)
  | done => exact hone
  | alloc =>
    dsimp only
    rw [allocLoop_eq]
    exact hone.trans (Steps.chargeAll _ _)

theorem receiveAll_steps (hq : q.Taken) (wid : ℤ) : ∀ {fuel : ℕ} {st st' : State},
    receiveAll q wid fuel st = some st' → Steps st st'
  | fuel + 1, st, st', h => by
    have hround := receivePacket_steps hq wid st
    unfold receiveAll at h
    dsimp only at h
    split_ifs at h
    · cases h
      exact hround
    · exact hround.trans (receiveAll_steps hq wid h)

theorem busyWait_steps (wid : ℤ) : ∀ {fuel : ℕ} {st st' : State},
    busyWait wid fuel st = some st' → Steps st st'
  | fuel + 1, st, st', h => by
    have hround := queueConsume_steps (q := .reverse wid) trivial st
    unfold busyWait at h
    by_cases hpos : st.tally (.reverse wid) > 0
    · rw [if_pos hpos] at h
      refine hround.trans (ReflTransGen.trans ?_ (busyWait_steps wid h))
      split_ifs
      · exact Steps.charge 200 _
      · exact Steps.charge 400 _
    · rw [if_neg hpos] at h
      cases h
      exact .refl

/-- Searching a row of queues, and producing into the queue found. -/
theorem getAvailable_steps (row : ℕ → Tally) (hrow : ∀ idx, (row idx).Fed) {size : ℕ}
    (hsize : 0 < size) (st : State) :
    let r := getAvailable (fun idx => st.tally (row idx) ≥ queueLimit) (row 0) size st
    Steps st (queueProduce (row r.1) r.2) := by
  rcases getAvailable_cases (fun idx => st.tally (row idx) ≥ queueLimit) (row 0) size st with
    ⟨-, hspace, heq⟩ | ⟨-, hfull, heq⟩
  · rw [heq]
    refine (Steps.chargeAll st _).trans (queueProduce_steps (hrow _) ?_)
    intro _
    rw [State.chargeAll_tally]
    exact not_le.1 (of_decide_eq_false hspace)
  · rw [heq]
    refine (Steps.chargeAll st _).tail (.evict (row 0) _ (hrow 0) ?_)
    intro _
    exact of_decide_eq_true (hfull 0 hsize)

theorem getAvailablePacket_steps (c : Config) (wid : ℤ) (size : ℕ) (st : State) :
    Steps st (queueProduce (.queue wid (getAvailablePacket c wid size st).1)
      (getAvailablePacket c wid size st).2) := by
  rw [getAvailablePacket_evicts]
  exact (Steps.chargeAll st _).tail (.evict (.queue wid 0) _ trivial (fun h => h.elim))

/-! ## Steps of the calls -/

theorem forwardToStage_steps (hA : 0 < c.numAuxWorkers) (wid isMyIter : ℤ) (i : ℕ) (st : State) :
    Steps st (forwardToStage c wid isMyIter i st) := by
  unfold forwardToStage
  split_ifs
  · exact getAvailable_steps (fun idx => .commit idx) (fun _ => trivial) hA st
  · have hW : 0 < 12 - c.numAuxWorkers := Nat.sub_pos_of_lt c.aux_lt
    have hput := getAvailable_steps (fun idx => .ucvf (c.forwardSource wid i) idx)
      (fun _ => trivial) hW st
    rw [← c.numWorkers_eq] at hput
    exact hput.trans (Steps.charge 300 _)

theorem forwardPacket_steps (hA : 0 < c.numAuxWorkers) (wid shadowSize myStage isMyIter : ℤ)
    (st : State) : Steps st (forwardPacket c wid shadowSize myStage isMyIter st) := by
  have hloop := @Steps.forLoop (asUnsigned (myStage + 1)).toNat c.numStages 1 _
    (forwardToStage_steps hA wid isMyIter) st
  exact hloop.trans (getAvailablePacket_steps c wid c.numAuxWorkers _)

theorem forwardPair_steps (hA : 0 < c.numAuxWorkers) (wid shadowSize myStage isMyIter : ℤ)
    (st : State) : Steps st (forwardPair c wid shadowSize myStage isMyIter st) := by
  have hpacket (size : ℤ) (st : State) := forwardPacket_steps hA wid size myStage isMyIter st
  have hwords := @Steps.forLoop 0 pageSize 8 _
    (fun _ st => (hpacket 8 st).trans (hpacket 8 _))
  exact ((hpacket shadowSize st).trans (hpacket shadowSize _)).trans (hwords _)

theorem forwardPages_steps (hA : 0 < c.numAuxWorkers) (wid myStage isMyIter : ℤ) (st : State) :
    Steps st (forwardPages c wid myStage isMyIter st) := by
  have hpair (size : State → ℕ → ℤ) (i : ℕ) (st : State) :
      Steps st (forwardPair c wid (size st i) myStage isMyIter st) :=
    forwardPair_steps hA wid _ myStage isMyIter st
  have hglobals := @Steps.forLoop 0 c.numGlobals 1 _ (hpair State.shadowGlobals) st
  have hheaps := @Steps.forLoop 0 c.numHeaps 1 _ (hpair State.shadowHeaps)
  have hstacks := @Steps.forLoop 0 c.numStacks 1 _ (hpair State.shadowStacks)
  exact (hglobals.trans (hheaps _)).trans (hstacks _)

theorem countEntries_steps (buf : ℕ → ℕ → ℤ) (numLoads numContexts : ℤ) (st : State) :
    Steps st (countEntries buf numLoads numContexts st).2 := by
  unfold countEntries
  refine forLoop_keeps (fun r : ℤ × State => Steps st r.2) ?_ .refl
  intro i _ _ r hr
  refine forLoop_keeps (fun r : ℤ × State => Steps st r.2) ?_ hr
  intro j _ _ r hr
  have hcharge := hr.trans (Steps.charge 4 r.2)
  exact hcharge.trans (Steps.forLoop (fun _ => Steps.charge 13) _)

theorem endIter_steps (hA : 0 < c.numAuxWorkers) (wid myStage isMyIter : ℤ) (st : State) :
    Steps st (endIter c wid myStage isMyIter st) := by
  refine ReflTransGen.trans ?_ (forwardPages_steps hA wid myStage isMyIter _)
  split_ifs
  · let r := updateShadowLoopInvariants c st.prediction.numLoopInvariantLoads
      st.prediction.numContexts st
    let st₁ := { r.2 with prediction := { r.2.prediction with numLoopInvariantLoads := r.1 } }
    have hloads : Steps st r.2 := countEntries_steps _ _ _ st
    have hcontexts : Steps st₁ (updateShadowLinearPredictedValues c
        st₁.prediction.numLoopInvariantLoads st₁.prediction.numContexts st₁).2 :=
      countEntries_steps _ _ _ st₁
    exact ((hloads.tail (.rest _ st₁ rfl rfl)).trans hcontexts).tail (.rest _ _ rfl rfl)
  · exact .refl

theorem updatePredictions_steps (wid : ℤ) (st : State) : Steps st (updatePredictions c wid st) := by
  have hloads (nl nc : ℤ) (st : State) : Steps st (updateLoopInvariants nl nc st) := by
    refine Steps.forLoop ?_ st
    intro i st
    refine Steps.forLoop ?_ st
    intro j st
    exact (Steps.charge 4 st).tail (.rest _ _ rfl rfl)
  have hlinear (nl nc : ℤ) (st : State) : Steps st (updateLinearPredictedValues nl nc st) := by
    refine Steps.forLoop ?_ st
    intro i st
    refine Steps.forLoop ?_ st
    intro j st
    exact (Steps.charge 4 st).tail (.rest _ _ rfl rfl)
  have hput (i : ℕ) (st : State) : Steps st (queueProduce (.queue wid i) st) :=
    queueProduce_steps trivial fun h => h.elim
  exact ((hloads _ _ st).trans (hlinear _ _ _)).trans (Steps.forLoop hput _)

theorem beginIter_steps {wid iter myStage isMyIter : ℤ}
    (h : beginIter c fuel wid iter myStage isMyIter st = some st') : Steps st st' := by
  unfold beginIter at h
  obtain ⟨st₁, hrecv, hrest⟩ := Option.bind_eq_some_iff.1 h
  have hreceived : Steps st st₁ := by
    refine forN?_keeps (fun st' => Steps st st') ?_ hrecv .refl
    intro k t t' hround ht
    have hq : (Tally.ucvf (c.modNumWorkers (wid + (0 + 1 * k : ℕ))) wid).Taken := trivial
    exact ht.trans (receiveAll_steps hq wid hround)
  have hpredicted : Steps st (if iter ≠ 0 ∧ myStage = 0 then updatePredictions c wid st₁
      else st₁) := by
    split_ifs
    · exact hreceived.trans (updatePredictions_steps wid st₁)
    · exact hreceived
  obtain rfl := Option.some.inj hrest
  split_ifs at hpredicted ⊢
  all_goals first
    | exact hpredicted
    | exact hpredicted.trans (Steps.forLoop (fun _ => Steps.charge 1) _)

theorem exec_steps (hA : 0 < c.numAuxWorkers) {call : ProgramCall}
    (h : call.exec c fuel st = some st') : Steps st st' := by
  cases call with
  | forwardPacket => exact Option.some.inj h ▸ forwardPacket_steps hA ..
  | forwardPair => exact Option.some.inj h ▸ forwardPair_steps hA ..
  | beginIter => exact beginIter_steps h
  | busyWait => exact busyWait_steps _ h
  | endIter => exact Option.some.inj h ▸ endIter_steps hA ..

theorem runProgram_steps (hA : 0 < c.numAuxWorkers) : ∀ {calls : List ProgramCall} {st : State},
    runProgram c fuel calls st = some st' → Steps st st'
  | [], st, h => Option.some.inj h ▸ .refl
  | call :: calls, st, h => by
    obtain ⟨st₁, hcall, hrest⟩ := Option.bind_eq_some_iff.1 h
    exact (exec_steps hA hcall).trans (runProgram_steps hA hrest)

/-! ## What the steps keep -/

theorem Step.bounded (h : Step st st') (hb : Bounded st) : Bounded st' := by
  cases h with
  | charge n => exact hb.charge n
  | take q _ hq hne =>
    refine hb.store ?_
    intro hc
    obtain ⟨hlo, hhi⟩ := hb.tally q hc
    constructor <;> omega
  | put q _ hq hlt =>
    refine hb.store ?_
    intro hc
    have hlo := (hb.tally q hc).1
    have hhi := hlt hc
    constructor <;> omega
  | evict q _ hq hfull =>
    have hlimit : queueLimit = 16 := rfl
    refine queueProduce_bounded (hb.store ?_) ?_
    · intro hc
      have hhi := (hb.tally q hc).2
      have hle := hfull hc
      constructor <;> omega
    · intro hc
      have hhi := (hb.tally q hc).2
      rw [State.store_tally, Function.update_self]
      omega
  | rest _ _ ht htr => exact hb.congr ht (by rw [htr])

theorem Steps.bounded (h : Steps st st') (hb : Bounded st) : Bounded st' := by
  induction h with
  | refl => exact hb
  | tail _ hstep ih => exact hstep.bounded ih

theorem queueProduce_tally (q : Tally) (st : State) :
    (queueProduce q st).tally = Function.update st.tally q (st.tally q + 1) := rfl

/-- Nothing is put into a reverse commit queue. -/
theorem Step.reverse (h : Step st st') (h₀ : ∀ wid, st.tally (.reverse wid) = 0) :
    ∀ wid, st'.tally (.reverse wid) = 0 := by
  intro wid
  cases h with
  | charge n => exact h₀ wid
  | take q _ hq hne =>
    have hother : .reverse wid ≠ q := by
      rintro rfl
      exact hne (h₀ wid)
    rw [State.store_tally, Function.update_of_ne hother, h₀]
  | put q _ hq =>
    have hother : .reverse wid ≠ q := by
      rintro rfl
      exact hq
    rw [State.store_tally, Function.update_of_ne hother, h₀]
  | evict q _ hq =>
    have hother : .reverse wid ≠ q := by
      rintro rfl
      exact hq
    rw [queueProduce_tally, Function.update_of_ne hother, State.store_tally,
      Function.update_of_ne hother, h₀]
  | rest _ _ ht => rw [ht, h₀]

theorem Steps.reverse (h : Steps st st') (h₀ : ∀ wid, st.tally (.reverse wid) = 0) :
    ∀ wid, st'.tally (.reverse wid) = 0 := by
  induction h with
  | refl => exact h₀
  | tail _ hstep ih => exact hstep.reverse ih

/-- Nothing is taken from a commit queue; a packet of a full one may be
    overwritten. -/
theorem Step.commit (h : Step st st') (idx : ℤ) {k : ℤ} (hk : k ≤ queueLimit - 1)
    (hle : k ≤ st.tally (.commit idx)) : k ≤ st'.tally (.commit idx) := by
  cases h with
  | charge n => exact hle
  | take q _ hq =>
    have hother : .commit idx ≠ q := by
      rintro rfl
      exact hq
    rwa [State.store_tally, Function.update_of_ne hother]
  | put q =>
    rw [State.store_tally, Function.update_apply]
    split_ifs with heq
    · rw [← heq]
      omega
    · exact hle
  | evict q _ _ hfull =>
    rw [queueProduce_tally, State.store_tally, Function.update_self, Function.update_idem,
      Function.update_apply]
    split_ifs with heq
    · have hlimit := hfull (heq ▸ trivial)
      omega
    · exact hle
  | rest _ _ ht => rwa [ht]

theorem Steps.commit (h : Steps st st') (idx : ℤ) {k : ℤ} (hk : k ≤ queueLimit - 1)
    (hle : k ≤ st.tally (.commit idx)) : k ≤ st'.tally (.commit idx) := by
  induction h with
  | refl => exact hle
  | tail _ hstep ih => exact hstep.commit idx hk ih

/-! ## Runs from empty tables -/

theorem exec_returns (hf : queueLimit < fuel) (hb : Bounded st)
    (h₀ : ∀ wid, st.tally (.reverse wid) = 0) (call : ProgramCall) :
    ∃ st', call.exec c fuel st = some st' := by
  cases call with
  | forwardPacket | forwardPair | endIter => exact ⟨_, rfl⟩
  | beginIter wid iter myStage isMyIter =>
    obtain ⟨st', hst', -⟩ := beginIter_bounded (c := c) hb hf wid iter myStage isMyIter
    exact ⟨st', hst'⟩
  | busyWait wid =>
    have hlimit : queueLimit = 16 := rfl
    exact ⟨st, busyWait_empty (by omega) (h₀ wid)⟩

/-- Every run of calls returns. -/
theorem runProgram_returns (hA : 0 < c.numAuxWorkers) (hf : queueLimit < fuel) :
    ∀ (calls : List ProgramCall) {st : State}, Bounded st → (∀ wid, st.tally (.reverse wid) = 0) →
      ∃ st', runProgram c fuel calls st = some st'
  | [], st, _, _ => ⟨st, rfl⟩
  | call :: calls, st, hb, h₀ => by
    obtain ⟨st₁, hcall⟩ := exec_returns (c := c) hf hb h₀ call
    have hsteps := exec_steps hA hcall
    obtain ⟨st', hrest⟩ := runProgram_returns hA hf calls (hsteps.bounded hb) (hsteps.reverse h₀)
    refine ⟨st', ?_⟩
    unfold runProgram at hrest ⊢
    rw [List.foldlM_cons, hcall]
    exact hrest

/-- **The traffic with the commit side goes one way.**  Whatever calls are made
    from empty tables, `busy_wait` never finds a packet; and a commit queue
    never gets shorter, but for the packet of a full one that is overwritten. -/
theorem traffic_oneWay (hA : 0 < c.numAuxWorkers) (hf : queueLimit < fuel) (st : State)
    (calls calls' : List ProgramCall) :
    ∃ st₁ st₂, runProgram c fuel calls st.fresh = some st₁ ∧
      runProgram c fuel calls' st₁ = some st₂ ∧
      (∀ wid, busyWait wid fuel st₂ = some st₂) ∧
      ∀ idx, min (st₁.tally (.commit idx)) 15 ≤ st₂.tally (.commit idx) := by
  have hlimit : queueLimit = 16 := rfl
  have hreverse : ∀ wid, st.fresh.tally (.reverse wid) = 0 := fun _ => rfl
  obtain ⟨st₁, h₁⟩ := runProgram_returns hA hf calls (fresh_bounded st) hreverse
  have hsteps := runProgram_steps hA h₁
  obtain ⟨st₂, h₂⟩ := runProgram_returns hA hf calls' (hsteps.bounded (fresh_bounded st))
    (hsteps.reverse hreverse)
  have hsteps' := runProgram_steps hA h₂
  refine ⟨st₁, st₂, h₁, h₂, ?_, ?_⟩
  · intro wid
    exact busyWait_empty (by omega) (Steps.reverse (hsteps.trans hsteps') hreverse wid)
  · intro idx
    exact hsteps'.commit idx (by omega) (min_le_left _ _)

theorem traffic_oneWay_default :
    ∃ st₁ st₂, runProgram .default 17 [.endIter 0 0 0, .busyWait 0] (State.init .default).fresh =
        some st₁ ∧
      runProgram .default 17 [.beginIter 1 1 3 1, .endIter 1 3 0] st₁ = some st₂ ∧
      (∀ wid, busyWait wid 17 st₂ = some st₂) ∧
      ∀ idx, min (st₁.tally (.commit idx)) 15 ≤ st₂.tally (.commit idx) :=
  traffic_oneWay (by decide) (by decide) _ _ _

end SpecPriv.Simple
