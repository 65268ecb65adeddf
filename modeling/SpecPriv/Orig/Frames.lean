/-
  The frames of calls that a worker makes.

  For every iteration that it owns a worker makes one frame of calls: it
  broadcasts its allocations, forwards pages and words under its own number and
  the number of the iteration, and broadcasts the end of the iteration.  For
  other iterations it makes no call at all.

  * `IsFrame`: the shape of a frame; `endIter_frame`: `end_iter` makes one;
  * `SendsFrames`: between two states of a worker only the frames of the
    iterations that it owned were sent, in order.
-/
import Mathlib.Data.List.Intervals
import SpecPriv.Orig.EndIter

namespace SpecPriv

/-- The call forwards a page or a word for the iteration `iter`. -/
def Call.ForwardsFor (wid : Wid) (iter : ℕ) : Call → Prop
  | .forwardPage wid' iter' _ _ => wid' = wid ∧ iter' = iter
  | .forwardPacket wid' iter' _ _ _ _ => wid' = wid ∧ iter' = iter
  | .broadcastMallocChunk _ _ _ => False
  | .broadcastEoi _ _ _ _ => False

/-- The calls of the owner of an iteration. -/
def IsFrame (wid : Wid) (iter : ℕ) (cs : List Call) : Prop :=
  ∃ elem size fwd, cs = .broadcastMallocChunk wid elem size :: (fwd ++ [eoiCall wid]) ∧
    ∀ c ∈ fwd, c.ForwardsFor wid iter

/-- The iterations from `a` on and before `b` that the worker owns. -/
def ownedBetween (L : StageLayout) (wid : Wid) (a b : ℕ) : List ℕ :=
  (List.Ico a b).filter fun i => runIteration L wid i

/-- From one log to the other, the worker sent the frames of the iterations it
    owned from `a` on and before `b`. -/
def SendsFrames (L : StageLayout) (wid : Wid) (a b : ℕ) (log log' : List Call) : Prop :=
  a ≤ b ∧ ∃ frame : ℕ → List Call, (∀ i ∈ ownedBetween L wid a b, IsFrame wid i (frame i)) ∧
    log' = log ++ (ownedBetween L wid a b).flatMap frame

/-- A step makes forwarding calls for the iteration, and no others. -/
def Carries (wid : Wid) (iter : ℕ) (o o' : Outbox) : Prop :=
  ∃ cs, o'.log = o.log ++ cs ∧ ∀ c ∈ cs, c.ForwardsFor wid iter

variable {L : StageLayout} {wid : Wid} {iter a b : ℕ} {log log' : List Call} {o o' o'' : Outbox}
  {am : AddressMap} {check : Check}

/-! ## Forwarding -/

theorem Carries.refl : Carries wid iter o o := ⟨[], by simp, by simp⟩

theorem Carries.trans (h : Carries wid iter o o') (h' : Carries wid iter o' o'') :
    Carries wid iter o o'' := by
  obtain ⟨cs, hlog, hcs⟩ := h
  obtain ⟨cs', hlog', hcs'⟩ := h'
  refine ⟨cs ++ cs', by rw [hlog', hlog, List.append_assoc], ?_⟩
  intro c hc
  rcases List.mem_append.1 hc with hc | hc
  · exact hcs c hc
  · exact hcs' c hc

theorem Carries.call {c : Call} (hc : c.ForwardsFor wid iter) : Carries wid iter o (o.call c) := by
  refine ⟨[c], rfl, ?_⟩
  intro c' hc'
  rwa [List.mem_singleton.1 hc']

/-- What a step carries depends on its log only. -/
theorem Carries.congr (h : Carries wid iter o o') (hlog : o''.log = o'.log) :
    Carries wid iter o o'' := by
  obtain ⟨cs, hcs, hfwd⟩ := h
  exact ⟨cs, hlog.trans hcs, hfwd⟩

theorem forwardRoPage_carries (o : Outbox) : Carries wid iter o (forwardRoPage wid iter o) := by
  unfold forwardRoPage
  split_ifs
  · exact (Carries.call (c := .forwardPage wid iter (.roPageBuffer o.roPageBuffer.data) .roPage)
      ⟨rfl, rfl⟩).congr rfl
  · exact Carries.refl

theorem bufferRoPage_carries (page : ℕ) (o : Outbox) :
    Carries wid iter o (bufferRoPage wid iter page o) := by
  have hroom : Carries wid iter o (makeRoom wid iter o) := by
    unfold makeRoom
    split_ifs
    · exact (forwardRoPage_carries o).congr rfl
    · exact Carries.refl
  exact hroom.congr rfl

theorem Parcel.send_carries (p : Parcel) (o : Outbox) :
    Carries wid iter o (p.send wid iter check o) := by
  cases p with
  | pages mem data shadow metadata =>
    have hmem : Carries wid iter o (forwardPage wid iter (.page mem data) check o) :=
      Carries.call ⟨rfl, rfl⟩
    exact hmem.trans (Carries.call ⟨rfl, rfl⟩)
  | words ws =>
    simp only [Parcel.send]
    induction ws generalizing o with
    | nil => exact Carries.refl
    | cons w ws ih =>
      have hdata : Carries wid iter o (forwardPacket wid iter w.1 w.2.1 8 check o) :=
        Carries.call ⟨rfl, rfl⟩
      have hword : Carries wid iter o (sendWord wid iter check o w) :=
        hdata.trans (Carries.call ⟨rfl, rfl⟩)
      exact hword.trans (ih _)
  | readonly mem => exact bufferRoPage_carries mem o

theorem sendParcels_carries (m : Memory) : ∀ (pages : List am.Shadow) (o : Outbox),
    Carries wid iter o (sendParcels wid iter m pages o)
  | [], _ => Carries.refl
  | s :: pages, o => by
    rw [sendParcels_cons]
    exact ((parcelOf m s).send_carries o).trans (sendParcels_carries m pages _)

/-- The calls of a frame that forward something do so for its iteration. -/
theorem IsFrame.forwardsFor {cs : List Call} {c : Call} {wid' : Wid} {i : ℕ}
    (h : IsFrame wid iter cs) (hc : c ∈ cs) (hfwd : c.ForwardsFor wid' i) : i = iter := by
  obtain ⟨elem, size, fwd, rfl, hall⟩ := h
  rw [List.mem_cons, List.mem_append, List.mem_singleton] at hc
  rcases hc with rfl | hc | rfl
  · cases hfwd
  · have hfor := hall c hc
    cases c with
    | forwardPage => exact hfwd.2.symm.trans hfor.2
    | forwardPacket => exact hfwd.2.symm.trans hfor.2
    | broadcastMallocChunk => cases hfwd
    | broadcastEoi => cases hfwd
  · cases hfwd

/-! ## `end_iter` -/

/-- **The owner of an iteration sends one frame.** -/
theorem endIter_frame {rt : Runtime} {w : Worker am}
    (hrun : runIteration rt.layout wid w.currentIter)
    (heoi : eoiTest rt.layout wid w.currentIter) :
    ∃ cs, (endIter rt wid w).out.log = w.out.log ++ cs ∧ IsFrame wid w.currentIter cs := by
  obtain ⟨pages, st, h, hout⟩ := endIter_owned hrun
  have hparcels : Carries wid w.currentIter (w.out.call (w.mallocCall wid)) st.out := by
    rw [h.out]
    exact sendParcels_carries _ pages _
  obtain ⟨fwd, hlog, hfwd⟩ := hparcels.trans (forwardRoPage_carries st.out)
  refine ⟨w.mallocCall wid :: (fwd ++ [eoiCall wid]), ?_, _, _, fwd, rfl, hfwd⟩
  rw [hout, if_pos heoi, Outbox.call, hlog]
  simp [Outbox.call, Worker.mallocCall]

theorem runIteration_of_eoiTest (hw : wid.toNat < L.numWorkers) (hi : iter < 2 ^ 31)
    (h : eoiTest L wid iter) : runIteration L wid iter := by
  have hworker : L.IsWorkerOf (L.getMyStage wid) wid := ⟨hw, rfl⟩
  rw [StageLayout.eoiTest_iff hworker hi] at h
  rwa [StageLayout.runIteration_iff hworker hi]

/-- A worker sends nothing for an iteration of another one. -/
theorem endIter_other {rt : Runtime} {w : Worker am} (hw : wid.toNat < rt.layout.numWorkers)
    (hi : w.currentIter < 2 ^ 31) (hrun : ¬ runIteration rt.layout wid w.currentIter) :
    endIter rt wid w = { w with currentIter := w.currentIter + 1 } := by
  have heoi : ¬ eoiTest rt.layout wid w.currentIter := by
    intro h
    exact hrun (runIteration_of_eoiTest hw hi h)
  simp only [endIter, if_neg hrun, if_neg heoi]

theorem endIter_currentIter (rt : Runtime) (w : Worker am) :
    (endIter rt wid w).currentIter = w.currentIter + 1 :=
  rfl

/-! ## Owners -/

/-- Two owners of an iteration in one stage are the same worker. -/
theorem StageLayout.owner_inj {st : ℕ} {wid wid' : Wid} (hw : L.IsWorkerOf st wid)
    (hw' : L.IsWorkerOf st wid') (hi : iter < 2 ^ 31) (hrun : runIteration L wid iter)
    (hrun' : runIteration L wid' iter) : wid = wid' := by
  have hst := hw.stage_lt
  obtain ⟨hlo, -⟩ := (isWorkerOf_iff hst).1 hw
  obtain ⟨hlo', -⟩ := (isWorkerOf_iff hst).1 hw'
  have hoff := (runIteration_iff hw hi).1 hrun
  have hoff' := (runIteration_iff hw' hi).1 hrun'
  exact UInt32.toNat_inj.1 (by omega)

theorem StageLayout.exists_owner {st : ℕ} (hst : st < L.numStages) (hi : iter < 2 ^ 31) :
    ∃ wid, L.IsWorkerOf st wid ∧ runIteration L wid iter := by
  have hmod : iter % L.width st < L.width st := Nat.mod_lt _ (width_pos hst)
  have hbound := first_add_width_le hst
  have hmax := L.numWorkers_le
  have hnat : (UInt32.ofNat (L.first st + iter % L.width st)).toNat =
      L.first st + iter % L.width st := toNat_iteration (by omega)
  have hw : L.IsWorkerOf st (UInt32.ofNat (L.first st + iter % L.width st)) :=
    (isWorkerOf_iff hst).2 (by omega)
  exact ⟨_, hw, (runIteration_iff hw hi).2 (by omega)⟩

/-! ## Frames -/

theorem ownedBetween_succ (hab : a ≤ b) : ownedBetween L wid a (b + 1) =
    ownedBetween L wid a b ++ if runIteration L wid b then [b] else [] := by
  unfold ownedBetween
  rw [List.Ico.succ_top hab, List.filter_append]
  cases h : runIteration L wid b <;> simp [h]

theorem mem_ownedBetween {i : ℕ} :
    i ∈ ownedBetween L wid a b ↔ (a ≤ i ∧ i < b) ∧ runIteration L wid i := by
  rw [ownedBetween, List.mem_filter, List.Ico.mem]

theorem SendsFrames.refl : SendsFrames L wid a a log log := by
  have hnil : ownedBetween L wid a a = [] := by
    rw [ownedBetween, List.Ico.self_empty, List.filter_nil]
  refine ⟨le_rfl, fun _ => [], ?_, ?_⟩
  · simp [hnil]
  · simp [hnil]

/-- One more frame, of the next iteration. -/
theorem SendsFrames.owned (h : SendsFrames L wid a b log log') (hrun : runIteration L wid b)
    {cs : List Call} (hcs : IsFrame wid b cs) : SendsFrames L wid a (b + 1) log (log' ++ cs) := by
  obtain ⟨hab, frame, hframe, hlog⟩ := h
  have hold : ∀ i ∈ ownedBetween L wid a b, Function.update frame b cs i = frame i := by
    intro i hi
    have hlt := (mem_ownedBetween.1 hi).1.2
    exact Function.update_of_ne (by omega) _ _
  refine ⟨by omega, Function.update frame b cs, ?_, ?_⟩
  · intro i hi
    rw [ownedBetween_succ hab, if_pos hrun, List.mem_append, List.mem_singleton] at hi
    rcases hi with hi | rfl
    · rw [hold i hi]
      exact hframe i hi
    · rwa [Function.update_self]
  · rw [ownedBetween_succ hab, if_pos hrun, List.flatMap_append, List.flatMap_singleton,
      Function.update_self, hlog, List.append_assoc, List.flatMap_congr hold]

/-- The next iteration belongs to another worker. -/
theorem SendsFrames.other (h : SendsFrames L wid a b log log')
    (hrun : ¬ runIteration L wid b) : SendsFrames L wid a (b + 1) log log' := by
  obtain ⟨hab, frame, hframe, hlog⟩ := h
  have hsame : ownedBetween L wid a (b + 1) = ownedBetween L wid a b := by
    rw [ownedBetween_succ hab, if_neg hrun, List.append_nil]
  refine ⟨by omega, frame, ?_, ?_⟩
  · rwa [hsame]
  · rwa [hsame]

/-- `end_iter` sends the frame of its iteration, if it is the worker's. -/
theorem SendsFrames.endIter {rt : Runtime} {w : Worker am}
    (hw : wid.toNat < rt.layout.numWorkers) (hi : w.currentIter < 2 ^ 31)
    (h : SendsFrames rt.layout wid a w.currentIter log w.out.log) :
    SendsFrames rt.layout wid a (SpecPriv.endIter rt wid w).currentIter log
      (SpecPriv.endIter rt wid w).out.log := by
  rw [endIter_currentIter]
  by_cases hrun : runIteration rt.layout wid w.currentIter
  · obtain ⟨cs, hlog, hcs⟩ :=
      endIter_frame hrun (StageLayout.eoiTest_of_runIteration hw hi hrun)
    rw [hlog]
    exact h.owned hrun hcs
  · rw [endIter_other hw hi hrun]
    exact h.other hrun

end SpecPriv
