/-
  The cells that a call reads.

  `Agree S t t' st st'`: the states agree on the cells of `S` and on all other
  data that a call reads, and since the traces `t` and `t'` the same happened
  in both.  A call keeps two states in agreement when it reads cells of `S`
  only: `MainCall.agree`.  So what a call does, and what it costs, depends on
  the cells of `MainCall.reads` and on nothing else in the tables.
-/
import SpecPriv.Simple.Calls

namespace SpecPriv.Simple

open Loop

/-- The states agree on the cells of `S`, and the same was done since the
    traces `t` and `t'`. -/
structure Agree (S : Set Tally) (t t' : List Event) (st st' : State) : Prop where
  tally : ∀ cell ∈ S, st'.tally cell = st.tally cell
  numRoPages : st'.numRoPages = st.numRoPages
  prediction : st'.prediction = st.prediction
  isVer : st'.isVer = st.isVer
  events : ∃ new, st.trace = new ++ t ∧ st'.trace = new ++ t'

/-- The block of `end_iter` that counts the predictions. -/
def updateShadowPredictions (c : Config) (st : State) : State :=
  let r := updateShadowLoopInvariants c st.prediction.numLoopInvariantLoads
    st.prediction.numContexts st
  let st := { r.2 with prediction := { r.2.prediction with numLoopInvariantLoads := r.1 } }
  let r := updateShadowLinearPredictedValues c st.prediction.numLoopInvariantLoads
    st.prediction.numContexts st
  { r.2 with prediction := { r.2.prediction with numContexts := r.1 } }

theorem endIter_eq (c : Config) (wid myStage isMyIter : ℤ) (st : State) :
    endIter c wid myStage isMyIter st =
      forwardPages c wid myStage isMyIter
        (if isMyIter ≠ 0 then updateShadowPredictions c st else st) := rfl

variable {S : Set Tally} {t t' : List Event} {st st' : State} {c : Config} {q : Tally}

namespace Agree

theorem charge (h : Agree S t t' st st') (n : ℕ) : Agree S t t' (st.charge n) (st'.charge n) := by
  obtain ⟨new, hst, hst'⟩ := h.events
  refine ⟨h.tally, h.numRoPages, h.prediction, h.isVer, .charge n :: new, ?_, ?_⟩
  · rw [State.charge, hst, List.cons_append]
  · rw [State.charge, hst', List.cons_append]

theorem chargeAll (h : Agree S t t' st st') (cs : List ℕ) :
    Agree S t t' (st.chargeAll cs) (st'.chargeAll cs) := by
  obtain ⟨new, hst, hst'⟩ := h.events
  refine ⟨h.tally, h.numRoPages, h.prediction, h.isVer, cs.map .charge ++ new, ?_, ?_⟩
  · rw [State.chargeAll, hst, List.append_assoc]
  · rw [State.chargeAll, hst', List.append_assoc]

theorem store (h : Agree S t t' st st') (cell : Tally) (v : ℤ) :
    Agree S t t' (st.store cell v) (st'.store cell v) := by
  obtain ⟨new, hst, hst'⟩ := h.events
  refine ⟨?_, h.numRoPages, h.prediction, h.isVer, .store cell v :: new, ?_, ?_⟩
  · intro cell' hcell'
    rw [State.store_tally, State.store_tally, Function.update_apply, Function.update_apply,
      h.tally cell' hcell']
  · rw [State.store, hst, List.cons_append]
  · rw [State.store, hst', List.cons_append]

theorem mapPrediction (h : Agree S t t' st st') (f : Prediction → Prediction) :
    Agree S t t' { st with prediction := f st.prediction }
      { st' with prediction := f st'.prediction } :=
  ⟨h.tally, h.numRoPages, congrArg f h.prediction, h.isVer, h.events⟩

/-! ### Queues -/

theorem queueConsume (h : Agree S t t' st st') (hq : q ∈ S) :
    (queueConsume q st').1 = (queueConsume q st).1 ∧
      Agree S t t' (queueConsume q st).2 (queueConsume q st').2 := by
  have hcharge := h.charge 6
  unfold SpecPriv.Simple.queueConsume
  dsimp only
  rw [hcharge.tally q hq]
  split_ifs
  · exact ⟨rfl, hcharge⟩
  · exact ⟨rfl, hcharge.store q _⟩
  · exact ⟨rfl, hcharge.store q _⟩
  · exact ⟨rfl, hcharge.store q _⟩

theorem queueProduce (h : Agree S t t' st st') (hq : q ∈ S) :
    Agree S t t' (queueProduce q st) (queueProduce q st') := by
  unfold SpecPriv.Simple.queueProduce
  simp only [State.charge_tally, h.tally q hq]
  exact (h.charge 6).store q _

/-- A search whose tests give the same, and the produce after it. -/
theorem getAvailable (h : Agree S t t' st st') (row : ℕ → Tally) {full full' : ℕ → Bool}
    {size : ℕ} (hrow : ∀ idx, idx = 0 ∨ idx < size → row idx ∈ S)
    (hfull : ∀ idx < size, full' idx = full idx) :
    let r := getAvailable full (row 0) size st
    let r' := SpecPriv.Simple.getAvailable full' (row 0) size st'
    Agree S t t' (SpecPriv.Simple.queueProduce (row r.1) r.2)
      (SpecPriv.Simple.queueProduce (row r'.1) r'.2) := by
  intro r r'
  have hfind : FirstFit.find full' size 0 = FirstFit.find full size 0 :=
    FirstFit.find_congr fun idx hidx => hfull idx (by omega)
  have hchar := h.chargeAll (List.replicate (FirstFit.find full size 0) 3 ++ [1200])
  rcases getAvailable_cases full (row 0) size st with ⟨hlt, -, heq⟩ | ⟨hall, -, heq⟩ <;>
    rcases getAvailable_cases full' (row 0) size st' with ⟨hlt', -, heq'⟩ | ⟨hall', -, heq'⟩
  · rw [hfind] at heq'
    simp only [r, r', heq, heq']
    exact hchar.queueProduce (hrow _ (Or.inr hlt))
  · omega
  · omega
  · simp only [r, r', heq, heq']
    rw [h.tally (row 0) (hrow 0 (Or.inl rfl))]
    exact ((h.chargeAll _).store (row 0) _).queueProduce (hrow 0 (Or.inl rfl))

/-! ### The calls -/

theorem receivePacket (h : Agree S t t' st st') (hq : q ∈ S) (wid : ℤ) :
    (receivePacket q wid st').1 = (receivePacket q wid st).1 ∧
      Agree S t t' (receivePacket q wid st).2 (receivePacket q wid st').2 := by
  obtain ⟨htype, hone⟩ := h.queueConsume hq
  unfold SpecPriv.Simple.receivePacket
  generalize SpecPriv.Simple.queueConsume q st = r at htype hone ⊢
  generalize SpecPriv.Simple.queueConsume q st' = r' at htype hone ⊢
  obtain ⟨type, st₁⟩ := r
  obtain ⟨type', st₁'⟩ := r'
  obtain rfl : type' = type := htype
  have htwo := (hone.queueConsume hq).2
  cases type' with
  | normal => exact ⟨rfl, (htwo.charge 1).charge 1⟩
  | super =>
    have hro : st₁'.numRoPages = st₁.numRoPages := hone.numRoPages
    dsimp only
    rw [hro]
    split_ifs
    · have hdec : Agree S t t' { st₁ with numRoPages := st₁.numRoPages - 1 }
          { st₁' with numRoPages := st₁.numRoPages - 1 } :=
        ⟨hone.tally, rfl, hone.prediction, hone.isVer, hone.events⟩
      exact ⟨rfl, hdec.charge 1⟩
    · rw [updatePage_eq, updatePage_eq]
      exact ⟨rfl, htwo.chargeAll _⟩
  | done => exact ⟨rfl, hone⟩
  | alloc =>
    have hver : st₁'.isVer = st₁.isVer := hone.isVer
    dsimp only
    rw [allocLoop_eq, allocLoop_eq, hver]
    exact ⟨rfl, hone.chargeAll _⟩

theorem receiveAll (hq : q ∈ S) (wid : ℤ) : ∀ (fuel : ℕ) {st st' : State}, Agree S t t' st st' →
    Option.Rel (Agree S t t') (receiveAll q wid fuel st) (receiveAll q wid fuel st')
  | 0, _, _, _ => .none
  | fuel + 1, st, st', h => by
    obtain ⟨hdone, hround⟩ := h.receivePacket hq wid
    rw [SpecPriv.Simple.receiveAll, SpecPriv.Simple.receiveAll, hdone]
    split_ifs
    · exact .some hround
    · exact receiveAll hq wid fuel hround

theorem updateLoopInvariants (h : Agree S t t' st st') (nl nc : ℤ) :
    Agree S t t' (updateLoopInvariants nl nc st) (updateLoopInvariants nl nc st') := by
  refine forLoop_related ?_ h
  intro i _ _ st st' h
  refine forLoop_related ?_ h
  intro j _ _ st st' h
  exact (h.charge 4).mapPrediction fun p => { p with
    loopInvariantBuffer := setEntry p.loopInvariantBuffer i j
      (Int.tmod (p.loopInvariantBuffer i j + i) 8) }

theorem updateLinearPredictedValues (h : Agree S t t' st st') (nl nc : ℤ) :
    Agree S t t' (updateLinearPredictedValues nl nc st)
      (updateLinearPredictedValues nl nc st') := by
  refine forLoop_related ?_ h
  intro i _ _ st st' h
  refine forLoop_related ?_ h
  intro j _ _ st st' h
  exact (h.charge 4).mapPrediction fun p => { p with
    linearPredictors := setEntry p.linearPredictors i j
      (Int.tmod (p.linearPredictors i j + j) 8) }

theorem updatePredictions (h : Agree S t t' st st') {wid : ℤ}
    (hq : ∀ k < c.numAuxWorkers, .queue wid k ∈ S) :
    Agree S t t' (updatePredictions c wid st) (updatePredictions c wid st') := by
  unfold SpecPriv.Simple.updatePredictions
  rw [h.prediction]
  have hinvariants := h.updateLoopInvariants st.prediction.numLoopInvariantLoads
    st.prediction.numContexts
  have hvalues := hinvariants.updateLinearPredictedValues
    (SpecPriv.Simple.updateLoopInvariants st.prediction.numLoopInvariantLoads
      st.prediction.numContexts st).prediction.numLoopInvariantLoads
    (SpecPriv.Simple.updateLoopInvariants st.prediction.numLoopInvariantLoads
      st.prediction.numContexts st).prediction.numContexts
  dsimp only
  rw [hinvariants.prediction]
  refine forLoop_related ?_ hvalues
  intro k _ hk st st' h
  exact h.queueProduce (hq k hk)

theorem countEntries (h : Agree S t t' st st') (buf : ℕ → ℕ → ℤ) (nl nc : ℤ) :
    (countEntries buf nl nc st').1 = (countEntries buf nl nc st).1 ∧
      Agree S t t' (countEntries buf nl nc st).2 (countEntries buf nl nc st').2 := by
  let R (r r' : ℤ × State) : Prop := r'.1 = r.1 ∧ Agree S t t' r.2 r'.2
  refine forLoop_related (R := R) ?_ ⟨rfl, h⟩
  intro i _ _ r r' hr
  refine forLoop_related (R := R) ?_ hr
  rintro j - - r r' ⟨hn, hr⟩
  refine ⟨by rw [hn], ?_⟩
  exact forLoop_related (fun _ _ _ _ _ h => h.charge 13) (hr.charge 4)

theorem forwardToStage (h : Agree S t t' st st') {wid isMyIter : ℤ} {i : ℕ}
    (hcommit : isMyIter = 0 → ∀ idx : ℕ, idx = 0 ∨ idx < c.numAuxWorkers → .commit idx ∈ S)
    (hucvf : isMyIter ≠ 0 → ∀ idx : ℕ, idx = 0 ∨ idx < c.width →
      .ucvf (c.forwardSource wid i) idx ∈ S) :
    Agree S t t' (forwardToStage c wid isMyIter i st) (forwardToStage c wid isMyIter i st') := by
  unfold SpecPriv.Simple.forwardToStage
  split_ifs with hmine
  · refine h.getAvailable (fun idx => .commit idx) (hcommit hmine) ?_
    intro idx hidx
    rw [h.tally _ (hcommit hmine idx (Or.inr hidx))]
  · have hwidth : c.numWorkers = c.width := c.numWorkers_eq
    unfold getAvailableUcvfPacket
    rw [hwidth]
    have hrow := hucvf hmine
    refine (h.getAvailable (fun idx => .ucvf (c.forwardSource wid i) idx) hrow ?_).charge 300
    intro idx hidx
    rw [h.tally _ (hucvf hmine idx (Or.inr hidx))]

theorem searchAndProduce (h : Agree S t t' st st') {wid : ℤ} (hq : .queue wid 0 ∈ S) :
    let r := getAvailablePacket c wid c.numAuxWorkers st
    let r' := getAvailablePacket c wid c.numAuxWorkers st'
    Agree S t t' (SpecPriv.Simple.queueProduce (.queue wid r.1) r.2)
      (SpecPriv.Simple.queueProduce (.queue wid r'.1) r'.2) := by
  intro r r'
  simp only [r, r', getAvailablePacket_evicts, h.tally _ hq]
  exact ((h.chargeAll _).store _ _).queueProduce hq

theorem busyWait {wid : ℤ} (hq : .reverse wid ∈ S) : ∀ (fuel : ℕ) {st st' : State},
    Agree S t t' st st' → Option.Rel (Agree S t t') (busyWait wid fuel st) (busyWait wid fuel st')
  | 0, _, _, _ => .none
  | fuel + 1, st, st', h => by
    obtain ⟨htype, hone⟩ := h.queueConsume hq
    rw [SpecPriv.Simple.busyWait, SpecPriv.Simple.busyWait, h.tally _ hq]
    split_ifs
    · dsimp only
      rw [htype]
      refine busyWait hq fuel ?_
      split_ifs
      · exact hone.charge 200
      · exact hone.charge 400
    · exact .some h

/-- Count the entries of a buffer, and store the number. -/
theorem storeCount (h : Agree S t t' st st') (buf : Prediction → ℕ → ℕ → ℤ)
    (set : ℤ → Prediction → Prediction) :
    let r := fun (st : State) => SpecPriv.Simple.countEntries (buf st.prediction)
      st.prediction.numLoopInvariantLoads st.prediction.numContexts st
    Agree S t t' { (r st).2 with prediction := set (r st).1 (r st).2.prediction }
      { (r st').2 with prediction := set (r st').1 (r st').2.prediction } := by
  intro r
  obtain ⟨hn, hr⟩ := h.countEntries (buf st.prediction) st.prediction.numLoopInvariantLoads
    st.prediction.numContexts
  simp only [r, h.prediction]
  rw [hn]
  exact hr.mapPrediction (set _)

theorem updateShadowPredictions (h : Agree S t t' st st') (c : Config) :
    Agree S t t' (updateShadowPredictions c st) (updateShadowPredictions c st') := by
  have hloads := h.storeCount Prediction.loopInvariantBuffer fun n p =>
    { p with numLoopInvariantLoads := if n > c.maxLoads ∨ n ≤ 0 then c.maxLoads else n }
  exact hloads.storeCount Prediction.linearPredictors fun n p =>
    { p with numContexts := if n > c.maxContexts ∨ n ≤ 0 then c.maxContexts else n }

end Agree

/-! ## The calls -/

/-- Whether there is a page to forward. -/
def Config.pages (c : Config) : ℕ := c.numGlobals + c.numHeaps + c.numStacks

/-- The cells that a call reads. -/
def MainCall.reads (c : Config) : MainCall → Set Tally
  | beginIter wid iter myStage _ =>
    {cell | (∃ i < myStage.toNat, cell = .ucvf (c.modNumWorkers (wid + i)) wid) ∨
      iter ≠ 0 ∧ myStage = 0 ∧ ∃ k < c.numAuxWorkers, cell = .queue wid k}
  | busyWait wid => {.reverse wid}
  | endIter wid myStage isMyIter =>
    {cell | 0 < c.pages ∧
      (cell = .queue wid 0 ∨
        ∃ i, (asUnsigned (myStage + 1)).toNat ≤ i ∧ i < c.numStages ∧
          (isMyIter = 0 ∧ (∃ idx : ℕ, (idx = 0 ∨ idx < c.numAuxWorkers) ∧ cell = .commit idx) ∨
            isMyIter ≠ 0 ∧ ∃ idx < c.width, cell = .ucvf (c.forwardSource wid i) idx))}

namespace Agree

variable {wid iter myStage isMyIter : ℤ} {fuel : ℕ}

theorem beginIter (h : Agree S t t' st st')
    (hS : (MainCall.beginIter wid iter myStage isMyIter).reads c ⊆ S) :
    Option.Rel (Agree S t t') (beginIter c fuel wid iter myStage isMyIter st)
      (beginIter c fuel wid iter myStage isMyIter st') := by
  have hreceive : Option.Rel (Agree S t t')
      (forLoop? 0 myStage.toNat 1 (fun i =>
        SpecPriv.Simple.receiveAll (.ucvf (c.modNumWorkers (wid + i)) wid) wid fuel) st)
      (forLoop? 0 myStage.toNat 1 (fun i =>
        SpecPriv.Simple.receiveAll (.ucvf (c.modNumWorkers (wid + i)) wid) wid fuel) st') := by
    refine forN?_related ?_ h
    intro k hk st st' h
    rw [rounds_one] at hk
    refine receiveAll (hS (Or.inl ⟨0 + 1 * k, by omega, rfl⟩)) wid fuel h
  unfold SpecPriv.Simple.beginIter
  generalize forLoop? 0 myStage.toNat 1 (fun i =>
    SpecPriv.Simple.receiveAll (.ucvf (c.modNumWorkers (wid + i)) wid) wid fuel) st = r,
    forLoop? 0 myStage.toNat 1 (fun i =>
      SpecPriv.Simple.receiveAll (.ucvf (c.modNumWorkers (wid + i)) wid) wid fuel) st' = r'
    at hreceive
  cases hreceive with
  | none => exact .none
  | @some st₁ st₁' h₁ =>
    let predict (st : State) : State :=
      if iter ≠ 0 ∧ myStage = 0 then SpecPriv.Simple.updatePredictions c wid st else st
    have h₂ : Agree S t t' (predict st₁) (predict st₁') := by
      unfold predict
      split_ifs with hfirst
      · exact h₁.updatePredictions fun k hk => hS (Or.inr ⟨hfirst.1, hfirst.2, k, hk, rfl⟩)
      · exact h₁
    refine .some ?_
    change Agree S t t'
      (if isMyIter ≠ 0 then setShadowHeaps c.numHeaps (predict st₁) else predict st₁)
      (if isMyIter ≠ 0 then setShadowHeaps c.numHeaps (predict st₁') else predict st₁')
    generalize predict st₁ = st₂, predict st₁' = st₂' at h₂
    split_ifs
    · exact forLoop_related (fun _ _ _ _ _ h => h.charge 1) h₂
    · exact h₂

theorem forwardPacket (h : Agree S t t' st st') (shadowSize : ℤ) (hpages : 0 < c.pages)
    (hS : (MainCall.endIter wid myStage isMyIter).reads c ⊆ S) :
    Agree S t t' (forwardPacket c wid shadowSize myStage isMyIter st)
      (forwardPacket c wid shadowSize myStage isMyIter st') := by
  have hloop : Agree S t t'
      (forLoop (asUnsigned (myStage + 1)).toNat c.numStages 1
        (SpecPriv.Simple.forwardToStage c wid isMyIter) st)
      (forLoop (asUnsigned (myStage + 1)).toNat c.numStages 1
        (SpecPriv.Simple.forwardToStage c wid isMyIter) st') := by
    refine forLoop_related ?_ h
    intro i hlo hhi st st' h
    refine h.forwardToStage ?_ ?_
    · intro hmine idx hidx
      exact hS ⟨hpages, Or.inr ⟨i, hlo, hhi, Or.inl ⟨hmine, idx, hidx, rfl⟩⟩⟩
    · intro hmine idx hidx
      have hwidth : 0 < c.width := Nat.sub_pos_of_lt c.aux_lt
      exact hS ⟨hpages, Or.inr ⟨i, hlo, hhi, Or.inr ⟨hmine, idx, by omega, rfl⟩⟩⟩
  exact hloop.searchAndProduce (hS ⟨hpages, Or.inl rfl⟩)

theorem forwardPair (h : Agree S t t' st st') (shadowSize : ℤ) (hpages : 0 < c.pages)
    (hS : (MainCall.endIter wid myStage isMyIter).reads c ⊆ S) :
    Agree S t t' (forwardPair c wid shadowSize myStage isMyIter st)
      (forwardPair c wid shadowSize myStage isMyIter st') := by
  unfold SpecPriv.Simple.forwardPair
  refine forLoop_related ?_
    ((h.forwardPacket shadowSize hpages hS).forwardPacket shadowSize hpages hS)
  intro i _ _ st st' h
  exact (h.forwardPacket 8 hpages hS).forwardPacket 8 hpages hS

theorem forwardPages (h : Agree S t t' st st')
    (hS : (MainCall.endIter wid myStage isMyIter).reads c ⊆ S) :
    Agree S t t' (forwardPages c wid myStage isMyIter st)
      (forwardPages c wid myStage isMyIter st') := by
  have hpair {n : ℕ} (hn : n ≤ c.pages) (size : ℕ → State → ℤ) {st st' : State}
      (h : Agree S t t' st st') : Agree S t t'
        (forLoop 0 n 1
          (fun i st => SpecPriv.Simple.forwardPair c wid (size i st) myStage isMyIter st) st)
        (forLoop 0 n 1
          (fun i st => SpecPriv.Simple.forwardPair c wid (size i st) myStage isMyIter st) st') := by
    refine forLoop_related ?_ h
    intro i _ hi st st' h
    exact h.forwardPair (size i st) (by omega) hS
  have hglobals : c.numGlobals ≤ c.pages ∧ c.numHeaps ≤ c.pages ∧ c.numStacks ≤ c.pages := by
    unfold Config.pages
    omega
  exact hpair hglobals.2.2 (fun i st => st.shadowStacks i)
    (hpair hglobals.2.1 (fun i st => st.shadowHeaps i)
      (hpair hglobals.1 (fun i st => st.shadowGlobals i) h))

theorem endIter (h : Agree S t t' st st')
    (hS : (MainCall.endIter wid myStage isMyIter).reads c ⊆ S) :
    Agree S t t' (endIter c wid myStage isMyIter st) (endIter c wid myStage isMyIter st') := by
  rw [endIter_eq, endIter_eq]
  refine forwardPages ?_ hS
  split_ifs
  · exact h.updateShadowPredictions c
  · exact h

end Agree

/-- **A call reads no other cells**: it does the same in states that agree on
    the cells that it reads. -/
theorem MainCall.agree (h : Agree S t t' st st') (call : MainCall) (hS : call.reads c ⊆ S)
    (fuel : ℕ) : Option.Rel (Agree S t t') (call.exec c fuel st) (call.exec c fuel st') := by
  cases call with
  | beginIter wid iter myStage isMyIter => exact h.beginIter hS
  | busyWait wid => exact Agree.busyWait (hS rfl) fuel h
  | endIter wid myStage isMyIter => exact .some (h.endIter hS)

/-- So do calls one after the other. -/
theorem runMain_agree {fuel : ℕ} : ∀ {calls : List MainCall} {st st' : State},
    Agree S t t' st st' → (∀ call ∈ calls, call.reads c ⊆ S) →
      Option.Rel (Agree S t t') (runMain c fuel calls st) (runMain c fuel calls st')
  | [], _, _, h, _ => .some h
  | call :: calls, st, st', h, hS => by
    have hcall := call.agree h (hS call List.mem_cons_self) fuel
    rw [runMain_cons, runMain_cons]
    generalize call.exec c fuel st = r, call.exec c fuel st' = r' at hcall
    cases hcall with
    | none => exact .none
    | some h₁ => exact runMain_agree h₁ fun call' hmem => hS call' (List.mem_cons_of_mem _ hmem)

end SpecPriv.Simple
