/-
  When `main` gets to its end in order.

  Two things go wrong in a run: a call uses a place without a queue, and stops
  there (`usesExist_iff`), or more packets are sent to a queue than its ring
  holds (`endIterDelivers_iff`).  `completes_iff`: neither of them happens if and
  only if there is no iteration at all, or `main` is a single iteration for each
  worker in which worker 0 sends at most seven pages.
-/
import SpecPriv.Trans.Iterations

namespace SpecPriv.Trans

open Loop Stopping

variable {c : Config} {env : Env} {fuel wid n : ℕ} {st st' st'' : State} {e : Entry}
  {es es' : List Entry} {call : MainCall} {calls : List MainCall}

/-- `main` returns, all places that its loops use lead to a queue, and every
    queue still holds all that was sent to it when they end. -/
def Config.Completes (c : Config) (env : Env) : Prop :=
  ∃ fuel st, runMain c env fuel c.mainCalls (beginInvocation c .init) = .ok st ∧
    main c env fuel = .ok (endInvocation c st) ∧
      (∀ e ∈ uses st.log, e.Exists c.numWorkers c.numAuxWorkers) ∧
        ∀ e : Entry, e.Exists c.numWorkers c.numAuxWorkers → Delivers e st

/-! ## What a log keeps -/

theorem stable_le_producedTo (env : Env) (e : Entry) (n : ℕ) :
    Stable env (fun _ => True) fun st => n ≤ (producedTo e st.log).length where
  send _ _ _ _ _ _ hst := by
    rw [producedTo_sendPacket, List.length_append]
    exact Nat.le_add_right_of_le hst
  consume _ _ _ hst := by
    rw [afterConsume_log, producedTo_cons, List.length_append]
    exact Nat.le_add_right_of_le hst
  clearPtr _ _ hst := hst
  pool _ _ _ _ hst := hst
  commitPool _ _ _ hst := hst

/-- `begin_invocation` uses no queue. -/
theorem beginInvocation_uses (c : Config) : uses (beginInvocation c .init).log = [] := by
  let P (st : State) : Prop := uses st.log = []
  have hmmap (a i length : ℕ) (st : State) (h : P st) : P (st.mmap a i length) := h
  have hreset (queue : ℕ) (st : State) (h : P st) : P (swQueueReset queue st) := by
    unfold swQueueReset
    exact forLoop_keeps P (fun _ _ _ _ hst => hst) h
  have hpackets : P (initPackets c.numAllWorkers .init) :=
    initPackets_keeps hmmap (fun _ _ h => h) (fun _ h => h) c.numAllWorkers rfl
  have hqueues := initQueues_keeps hmmap hreset c.numWorkers c.numAuxWorkers hpackets
  unfold beginInvocation
  refine hmmap _ _ _ _ ?_
  show uses (initHeaps c _ _ _ _).log = []
  rw [initHeaps_same State.log fun _ _ _ _ => rfl]
  exact hqueues

theorem producedTo_of_uses {log : List Event} (h : uses log = []) : producedTo e log = [] := by
  have hnone := List.filterMap_eq_nil_iff.1 h
  refine List.filterMap_eq_nil_iff.2 ?_
  intro ev hev
  cases ev with
  | produce e' v => exact absurd (hnone _ (List.mem_reverse.1 hev)) nofun
  | _ => rfl

/-! ## The packets of a run -/

theorem Sent.refl (env : Env) (wid : ℕ) (st : State) : Sent env wid [] st st := rfl

theorem Sent.trans (h : Sent env wid es st st') (h' : Sent env wid es' st' st'') :
    Sent env wid (es ++ es') st st'' := by
  unfold Sent at *
  rw [sendAll_append, h, bind_ok, h']

/-- The places that a call sends to in a first iteration at stage 0. -/
def MainCall.sends (c : Config) : MainCall → List Entry
  | endIter wid _ myStage => iterTargets c wid myStage
  | _ => []

/-- Only the worker 0 sends in a first iteration at stage 0. -/
theorem first_sends {w m : ℕ} (hw : w < c.numWorkers) (hcall : call ∈ iterCalls w 0 ⟨0, m⟩)
    (hexist : ∀ e ∈ iterTargets c 0 0, e.Exists c.numWorkers c.numAuxWorkers) (hf : 0 < fuel)
    (hst : Quiet c st) :
    ∃ st', call.exec c env fuel st = .ok st' ∧ Quiet c st' ∧
      Sent env 0 (call.sends c) st st' := by
  have hcalls : call = .beginIter w 0 0 m ∨ call = .busyWait w 0 ∨ call = .endIter w 0 0 := by
    simpa [iterCalls] using hcall
  rcases hcalls with rfl | rfl | rfl
  · refine ⟨st, ?_, hst, .refl env 0 st⟩
    show beginIter c env fuel w 0 0 m st = .ok st
    rw [beginIter_zero, if_neg (not_not_intro rfl)]
  · exact ⟨st, busyWait_quiet hst hw hf 0, hst, .refl env 0 st⟩
  · rcases Nat.eq_zero_or_pos w with rfl | hpos
    · have hworks : MainCall.Works c (.endIter 0 0 0) := hexist
      have hreturns : Returns (Quiet c) (endIter c env fuel 0 0 0) := works_returns hf hworks
      obtain ⟨st', hst', hquiet⟩ := hreturns st hst
      exact ⟨st', hst', hquiet, (endIter_sends c env 0 hf 0 0).sent hst.idle hst'⟩
    · have hne : w ≠ asUnsigned 0 := hpos.ne'
      refine ⟨st, ?_, hst, ?_⟩
      · show endIter c env fuel w 0 0 st = .ok st
        rw [endIter, if_neg hne]
      · show Sent env 0 (iterTargets c w 0) st st
        rw [iterTargets, if_neg hne]
        exact .refl env 0 st

theorem runMain_sends : ∀ {calls : List MainCall} {st : State},
    (∀ call ∈ calls, ∀ st, Quiet c st → ∃ st', call.exec c env fuel st = .ok st' ∧ Quiet c st' ∧
      Sent env 0 (call.sends c) st st') →
    Quiet c st → ∃ st', runMain c env fuel calls st = .ok st' ∧
      Sent env 0 (calls.flatMap (MainCall.sends c)) st st'
  | [], st, _, hst => ⟨st, rfl, .refl env 0 st⟩
  | call :: calls, st, h, hst => by
    obtain ⟨s, hs, hquiet, hsent⟩ := h call List.mem_cons_self st hst
    obtain ⟨st', hst', hrest⟩ := runMain_sends
      (fun call hcall => h call (List.mem_cons_of_mem _ hcall)) hquiet
    refine ⟨st', ?_, hsent.trans hrest⟩
    rw [runMain, List.foldlM_cons, hs, bind_ok]
    exact hst'

/-! ## The constants for which it completes -/

/-- A run that only sends completes when what it sends fits. -/
theorem completes_of_sent
    (hrun : runMain c env fuel c.mainCalls (beginInvocation c .init) = .ok st)
    (hsent : Sent env wid es (beginInvocation c .init) st)
    (hcount : ∀ e, es.count e ≤ queueSize / 2) : c.Completes env := by
  have hbuilt := beginInvocation_built c .init
  refine ⟨fuel, st, hrun, ?_, ?_, ?_⟩
  · rw [main_eq, hrun]
    rfl
  · intro e he
    rw [hsent.uses_eq, beginInvocation_uses, List.append_nil] at he
    exact (hbuilt.ptr_ne_zero_iff e).1 (hsent.ptr_ne_zero (List.mem_reverse.1 he))
  · intro e he
    refine hsent.delivers ?_ ?_ (producedTo_of_uses (beginInvocation_uses c)) (hcount e)
    · exact (hbuilt.ptr_ne_zero_iff e).2 he
    · rw [(beginInvocation_clean c).queue]
      exact emptyQueue_isEmpty

/-- No iteration, nothing to go wrong. -/
theorem completes_of_jump_zero (hjump : c.jump = 0) : c.Completes env := by
  have hcalls : c.mainCalls = [] := by
    have hiters : c.numIters = 0 := by
      show c.jump * c.numWorkersPerHeap = 0
      rw [hjump, Nat.zero_mul]
    unfold Config.mainCalls driverCalls loopCalls
    rw [hiters]
    simp
  have hrun : runMain c env 0 c.mainCalls (beginInvocation c .init) =
      .ok (beginInvocation c .init) := by
    rw [hcalls]
    rfl
  exact completes_of_sent hrun (Sent.refl env 0 _) fun e => Nat.zero_le _

/-- One iteration for each worker: the sends are those of worker 0. -/
theorem mainCalls_sends (hk : c.numWorkersPerHeap = 1) (hjump : c.jump = 1) :
    c.mainCalls.flatMap (MainCall.sends c) = iterTargets c 0 0 ∧
      ∀ call ∈ c.mainCalls, ∃ w < c.numWorkers, ∃ m, call ∈ iterCalls w 0 ⟨0, m⟩ := by
  have hiters : c.numIters = 1 := by
    show c.jump * c.numWorkersPerHeap = 1
    rw [hjump, hk]
  have hstage (w : ℕ) : (varsAt 1 1 w 0).myStage = 0 := by
    rw [varsAt_myStage, Nat.mod_one, Nat.zero_div, Nat.zero_mul]
  have hcalls : c.mainCalls =
      (List.range c.numWorkers).flatMap fun w => iterCalls w 0 ⟨0, (varsAt 1 1 w 0).isMyIter⟩ := by
    unfold Config.mainCalls driverCalls loopCalls
    rw [hiters, hk, hjump]
    refine List.flatMap_congr ?_
    intro w _
    have hvars : varsAt 1 1 w 0 = ⟨0, (varsAt 1 1 w 0).isMyIter⟩ :=
      congrArg (MainVars.mk · (varsAt 1 1 w 0).isMyIter) (hstage w)
    rw [← hvars]
    exact List.append_nil _
  refine ⟨?_, ?_⟩
  · obtain ⟨n, hn⟩ := Nat.exists_eq_succ_of_ne_zero c.workers_pos.ne'
    have hsends (w m : ℕ) :
        (iterCalls w 0 ⟨0, m⟩).flatMap (MainCall.sends c) = iterTargets c w 0 := by
      simp [iterCalls, MainCall.sends]
    have hrest : ((List.range n).flatMap fun w => iterTargets c (w + 1) 0) = [] := by
      refine List.flatMap_eq_nil_iff.2 ?_
      intro w _
      exact if_neg w.succ_ne_zero
    rw [hcalls, List.flatMap_assoc]
    simp only [hsends]
    rw [hn, List.range_succ_eq_map, List.flatMap_cons, List.flatMap_map, hrest,
      List.append_nil]
  · intro call hcall
    rw [hcalls] at hcall
    obtain ⟨w, hw, hcall⟩ := List.mem_flatMap.1 hcall
    exact ⟨w, List.mem_range.1 hw, _, hcall⟩

/-- A run that completes with an iteration. -/
theorem Config.Completes.bounds (h : c.Completes env) (hjump : 0 < c.jump) :
    c.numWorkersPerHeap = 1 ∧ c.numHeaps = c.numWorkers ∧ 0 < c.numAuxWorkers ∧
      c.numGlobals + c.numHeaps + c.numStacks ≤ 7 := by
  obtain ⟨fuel, st, hrun, -, -, hdelivers⟩ := h
  have hs : 0 < c.numStages := Nat.pos_of_div_pos hjump
  obtain ⟨m, rest, hfirst⟩ := mainCalls_first (Nat.mul_pos hjump c.perHeap_pos)
  have hbusy : .busyWait 0 0 ∈ c.mainCalls := by simp [hfirst]
  have hmem : .endIter 0 0 0 ∈ c.mainCalls := by simp [hfirst]
  obtain ⟨before, after, s, s', hbefore, hok, hafter⟩ := runMain_of_mem hrun hmem
  have hreached : Reached c env s := ⟨fuel, before, hbefore⟩
  have hf : 0 < fuel := fuel_pos_of_runMain hrun hbusy
  have hend : endIter c env fuel 0 0 0 s = .ok s' := hok
  obtain ⟨hk, hheaps, haux⟩ := heaps_eq_of_targets hjump
    (targets_exist_of_endIter hs hreached hf hend)
  refine ⟨hk, hheaps, haux, ?_⟩
  -- all packets of the first iteration stay in the log of the aux worker's queue
  have hsent := (endIter_sends c env 0 hf 0 0).sent hreached.idle hok
  have hle : (iterTargets c 0 0).count (.queue 0 0) ≤ (producedTo (.queue 0 0) s'.log).length := by
    rw [hsent.length_eq]
    exact Nat.le_add_left _ _
  have hstable := stable_le_producedTo env (.queue 0 0) ((iterTargets c 0 0).count (.queue 0 0))
  have hkept : Keeps _ (runMain c env fuel after) := run_keeps hstable after
  have hlast := hkept s' hle
  rw [hafter, last_ok, count_iterTargets_zero hs, if_pos (mem_targets.2 (.inr rfl))] at hlast
  have hfits := (hdelivers (.queue 0 0) ⟨c.workers_pos, haux⟩).1
  have hcap : queueSize / 2 = 8192 := by decide
  omega

/-- One worker for each stage, and pages that fit. -/
theorem completes_of_bounds (hk : c.numWorkersPerHeap = 1) (hheaps : c.numHeaps = c.numWorkers)
    (haux : 0 < c.numAuxWorkers) (hpages : c.numGlobals + c.numHeaps + c.numStacks ≤ 7) :
    c.Completes env := by
  have hw := c.workers_pos
  have hs : 0 < c.numStages := hw.trans_eq hheaps.symm
  obtain ⟨hcalls, hfirst⟩ := mainCalls_sends hk (jump_eq_one hk hheaps)
  have hexist : ∀ e ∈ iterTargets c 0 0, e.Exists c.numWorkers c.numAuxWorkers := by
    intro e he
    have he' : e ∈ targets c 0 (0 + 1) := (mem_iterTargets_zero hs).1 he
    exact (targets_exist_iff hw).2 ⟨fun _ => ⟨le_rfl, hheaps.le⟩, haux⟩ e he'
  have hsend : ∀ call ∈ c.mainCalls, ∀ st, Quiet c st →
      ∃ st', call.exec c env 1 st = .ok st' ∧ Quiet c st' ∧
        Sent env 0 (call.sends c) st st' := by
    intro call hcall st hst
    obtain ⟨w, hw, m, hcall⟩ := hfirst call hcall
    exact first_sends hw hcall hexist Nat.one_pos hst
  obtain ⟨st, hrun, hsent⟩ := runMain_sends hsend (beginInvocation_quiet c)
  rw [hcalls] at hsent
  refine completes_of_sent hrun hsent ?_
  intro e
  have hcap : queueSize / 2 = 8192 := by decide
  rw [count_iterTargets_zero hs]
  split_ifs <;> omega

/-- **Which constants `main` works for.**  It returns with every queue that it
    used created and every packet that it sent still there, if and only if it
    makes no iteration, or there is one worker for each stage, an aux worker, and
    at most seven pages. -/
theorem completes_iff (c : Config) (env : Env) : c.Completes env ↔
    c.numHeaps < c.numWorkersDivPerHeap ∨
      c.numWorkersPerHeap = 1 ∧ c.numHeaps = c.numWorkers ∧ 0 < c.numAuxWorkers ∧
        c.numGlobals + c.numHeaps + c.numStacks ≤ 7 := by
  constructor
  · intro h
    rcases Nat.eq_zero_or_pos c.jump with hjump | hjump
    · exact .inl ((Nat.div_eq_zero_iff.1 hjump).resolve_left c.div_pos.ne')
    · exact .inr (h.bounds hjump)
  · rintro (hlt | ⟨hk, hheaps, haux, hpages⟩)
    · exact completes_of_jump_zero (Nat.div_eq_of_lt hlt)
    · exact completes_of_bounds hk hheaps haux hpages

theorem completes_iff_twoStages : Config.twoStages.Completes .bump :=
  (completes_iff .twoStages .bump).2 (.inr (by decide))

end SpecPriv.Trans
