/-
  What one `end_iter` puts into a queue.

  `__sw_queue_produce` does not test whether the ring is full.  A call of
  `end_iter` sends the packets of all pages to each of its targets, 1026 for a
  page, with nobody consuming between them.  `endIterDelivers_iff`: when they
  fit, provided that the targets have queues, and then they come out as they
  were put in.
-/
import Mathlib.Data.List.Nodup
import SpecPriv.Trans.Uses

namespace SpecPriv.Trans

open Loop Stopping

variable {c : Config} {env : Env} {fuel wid stage n : ℕ} {st st' : State} {e : Entry}
  {es : List Entry} {xs : List Cell64}

/-- The value that an event produces to a place. -/
def Event.value? (e : Entry) : Event → Option Cell64
  | produce e' v => if e' = e then some v else none
  | _ => none

/-- The values that a log produces to a place, oldest first. -/
def producedTo (e : Entry) (log : List Event) : List Cell64 :=
  log.reverse.filterMap (Event.value? e)

/-- What was produced to a place fits into the ring, and is what consuming the
    queue until it is empty returns. -/
def Delivers (e : Entry) (st : State) : Prop :=
  (producedTo e st.log).length ≤ queueSize / 2 ∧
    ∃ fuel q, consumeUntilEmpty fuel (st.queue (e.ptr st.heap)) = some (producedTo e st.log, q)

/-- All queues that a call of `end_iter` produces to exist. -/
def EndIterQueuesExist (c : Config) (wid iter stage : ℕ) : Prop :=
  UsesExist c fun env fuel => endIter c env fuel wid iter stage

/-- From every state reached, the call returns, and delivers to every queue that
    it produces to and that was empty when it started. -/
def EndIterDelivers (c : Config) (wid iter stage : ℕ) : Prop :=
  ∀ env st, Reached c env st → ∀ fuel > 0, ∃ st',
    endIter c env fuel wid iter stage { st with log := [] } = .ok st' ∧
      ∀ e, e.ptr st.heap ≠ 0 → IsEmpty (st.queue (e.ptr st.heap)) →
        producedTo e st'.log ≠ [] → Delivers e st'

/-- Forwarding to queues that exist never overwrites an unconsumed packet. -/
def Config.NeverOverwrites (c : Config) : Prop :=
  ∀ wid < c.numWorkers, ∀ stage < c.numStages, ∀ iter,
    EndIterQueuesExist c wid iter stage → EndIterDelivers c wid iter stage

/-! ## The number of packets -/

theorem count_flatMap_const (es : List Entry) (n : ℕ) :
    ((List.range n).flatMap fun _ => es).count e = n * es.count e := by
  induction n with
  | zero => simp
  | succ n ih =>
    rw [List.range_succ, List.flatMap_append, List.count_append, ih, List.flatMap_singleton,
      Nat.succ_mul]

/-- A page is two packets and two for each of its 512 words. -/
theorem count_pairTargets (es : List Entry) : (pairTargets es).count e = 1026 * es.count e := by
  have hrounds : rounds 0 pageSize 8 = 512 := by decide
  rw [pairTargets, List.count_append, List.count_append, count_flatMap_const, List.count_append,
    hrounds]
  omega

theorem count_pageTargets (es : List Entry) (n : ℕ) :
    (pageTargets n es).count e = n * (1026 * es.count e) := by
  rw [pageTargets, count_flatMap_const, count_pairTargets]

theorem targets_nodup (c : Config) (wid start : ℕ) : (targets c wid start).Nodup := by
  unfold targets
  rw [← List.map_eq_flatMap, List.nodup_append]
  refine ⟨?_, List.nodup_singleton _, ?_⟩
  · refine (List.nodup_range (n := c.numStages - start)).map ?_
    intro i j hij
    injection hij with _ hij
    omega
  · intro e he e' he'
    rw [List.mem_singleton.1 he']
    obtain ⟨i, -, rfl⟩ := List.mem_map.1 he
    exact nofun

/-- The number of packets for a place of a call of `end_iter`. -/
theorem count_iterTargets (hs : stage < c.numStages) :
    (iterTargets c wid stage).count e =
      if wid = stage ∧ e ∈ targets c wid (stage + 1) then
        1026 * (c.numGlobals + c.numHeaps + c.numStacks)
      else 0 := by
  have hstage : asUnsigned stage = stage := by
    have := asUnsigned_succ hs
    have := c.heaps_lt
    unfold Config.numStages at hs
    exact asUnsigned_natCast (by omega)
  unfold iterTargets
  rw [hstage, asUnsigned_succ hs]
  by_cases hwid : wid = stage
  · rw [if_pos hwid, List.count_append, List.count_append, count_pageTargets, count_pageTargets,
      count_pageTargets]
    by_cases he : e ∈ targets c wid (stage + 1)
    · rw [if_pos ⟨hwid, he⟩, List.count_eq_one_of_mem (targets_nodup _ _ _) he]
      omega
    · rw [if_neg fun hc => he hc.2, List.count_eq_zero_of_not_mem he]
      rfl
  · rw [if_neg hwid, if_neg fun hc => hwid hc.1, List.count_nil]

/-! ## What a queue holds -/

theorem producedTo_cons (ev : Event) (log : List Event) :
    producedTo e (ev :: log) = producedTo e log ++ (ev.value? e).toList := by
  rw [producedTo, List.reverse_cons, List.filterMap_append]
  cases h : ev.value? e <;> simp [producedTo, h]

theorem producedTo_sendPacket (e' : Entry) (type : ℤ) (st : State) :
    producedTo e (last (sendPacket env wid type e' st)).log =
      producedTo e st.log ++ if e' = e then [env.address st.created] else [] := by
  rw [sendPacket_log, producedTo_cons]
  simp only [Event.value?]
  split_ifs <;> rfl

theorem sendAll_length : ∀ {es : List Entry} {st st' : State}, sendAll env wid es st = .ok st' →
    (producedTo e st'.log).length = (producedTo e st.log).length + es.count e
  | [], st, st', h => by
    obtain rfl := Except.ok.inj h
    rfl
  | e' :: es, st, st', h => by
    have hone : producedTo e (last (sendPacket env wid typeSuper e' st)).log = _ :=
      producedTo_sendPacket e' typeSuper st
    rw [sendAll_cons] at h
    obtain ⟨s, hs, hrest⟩ := bind_eq_ok h
    rw [hs, last_ok] at hone
    rw [sendAll_length hrest, hone, List.count_cons]
    by_cases he : e' = e
    · simp [he]
      omega
    · simp [he]

/-- Sending to an existing queue with enough space appends what is produced. -/
theorem sendAll_represents {cap : ℕ} (hsize : queueSize = 2 * cap) :
    ∀ {es : List Entry} {st st' : State}, sendAll env wid es st = .ok st' →
      e.ptr st.heap ≠ 0 → Represents cap (st.queue (e.ptr st.heap)) (producedTo e st.log) →
        (producedTo e st.log).length + es.count e ≤ cap →
          Represents cap (st'.queue (e.ptr st.heap)) (producedTo e st'.log)
  | [], st, st', h, _, hq, _ => by
    obtain rfl := Except.ok.inj h
    exact hq
  | e' :: es, st, st', h, he, hq, hlen => by
    have hheap := sendPacket_heap env wid typeSuper e' st
    have hone : producedTo e (last (sendPacket env wid typeSuper e' st)).log = _ :=
      producedTo_sendPacket e' typeSuper st
    have hqueue := sendPacket_queue env wid e st e' typeSuper he
    rw [sendAll_cons] at h
    rw [List.count_cons] at hlen
    obtain ⟨s, hs, h⟩ := bind_eq_ok h
    rw [hs, last_ok] at hheap hone hqueue
    have hrest := sendAll_represents hsize h (by rwa [hheap]) ?_ ?_
    · rwa [hheap] at hrest
    · rw [hheap, hqueue, hone]
      by_cases heq : e' = e
      · have hlt : (producedTo e st.log).length < cap := by
          simp only [heq, beq_self_eq_true, if_true] at hlen
          omega
        obtain ⟨q, hproduce, hq'⟩ := produce_represents hsize hq hlt (env.address st.created)
        rw [if_pos heq, if_pos heq, hproduce]
        exact hq'
      · rw [if_neg heq, if_neg heq, List.append_nil]
        exact hq
    · rw [hone]
      by_cases heq : e' = e
      · simp only [heq, beq_self_eq_true, if_true] at hlen
        simp only [heq, if_true, List.length_append, List.length_singleton]
        omega
      · simpa [heq] using hlen

namespace Sent

/-- The number of packets that a queue was sent. -/
theorem length_eq (h : Sent env wid es st st') :
    (producedTo e st'.log).length = (producedTo e st.log).length + es.count e := by
  have hlength : (producedTo e st'.core.log).length =
      (producedTo e st.core.log).length + es.count e := sendAll_length h
  exact hlength

/-- Sending delivers to an empty queue that has the space. -/
theorem delivers (h : Sent env wid es st st') (he : e.ptr st.heap ≠ 0)
    (hempty : IsEmpty (st.queue (e.ptr st.heap))) (hnil : producedTo e st.log = [])
    (hle : es.count e ≤ queueSize / 2) : Delivers e st' := by
  have hstart : Represents (queueSize / 2) (st.core.queue (e.ptr st.core.heap))
      (producedTo e st.core.log) := by
    show Represents _ _ (producedTo e st.log)
    rw [hnil]
    exact hempty
  have hspace : (producedTo e st.core.log).length + es.count e ≤ queueSize / 2 := by
    show (producedTo e st.log).length + _ ≤ _
    rwa [hnil, List.length_nil, Nat.zero_add]
  have hrep : Represents (queueSize / 2) (st'.core.queue (e.ptr st.core.heap))
      (producedTo e st'.core.log) := sendAll_represents queueSize_eq h he hstart hspace
  change Represents _ (st'.queue (e.ptr st.heap)) (producedTo e st'.log) at hrep
  rw [← h.heap] at hrep
  obtain ⟨q, hq, -⟩ := consumeUntilEmpty_represents queueSize_eq hrep (Nat.lt_succ_self _)
  refine ⟨?_, _, q, hq⟩
  rwa [h.length_eq, hnil, List.length_nil, Nat.zero_add]

end Sent

/-! ## `end_iter` -/

/-- A call of `end_iter` all of whose queues exist returns, and delivers to an
    empty queue what fits. -/
theorem endIter_delivers (wid : ℕ) (hst : Reached c env st) (hf : 0 < fuel) (iter : ℕ)
    (myStage : ℤ)
    (hexist : ∀ e ∈ iterTargets c wid myStage, e.Exists c.numWorkers c.numAuxWorkers) :
    ∃ st', endIter c env fuel wid iter myStage { st with log := [] } = .ok st' ∧
      ∀ e, (producedTo e st'.log).length = (iterTargets c wid myStage).count e ∧
        (e.ptr st.heap ≠ 0 → IsEmpty (st.queue (e.ptr st.heap)) →
          (iterTargets c wid myStage).count e ≤ queueSize / 2 → Delivers e st') := by
  have hidle : Idle { st with log := [] } := ⟨hst.idle.pool, hst.idle.commitPool, hst.idle.queue⟩
  have hsends := endIter_sends c env wid hf iter myStage
  obtain ⟨st', hst', -⟩ := hsends.returns hidle fun e he =>
    (hst.ptr_ne_zero_iff e).2 (hexist e he)
  have hsent := hsends.sent hidle hst'
  refine ⟨st', hst', ?_⟩
  intro e
  refine ⟨?_, fun he hempty hle => hsent.delivers he hempty rfl hle⟩
  rw [hsent.length_eq]
  exact Nat.zero_add _

/-- The targets of a call exist if all the queues do that it produces to. -/
theorem EndIterQueuesExist.targets (h : EndIterQueuesExist c wid n stage) :
    ∀ e ∈ iterTargets c wid stage, e.Exists c.numWorkers c.numAuxWorkers :=
  UsesExist.of_sends h (endIter_sends c Env.bump wid Nat.one_pos n stage)

theorem endIterQueuesExist_of_targets (hs : stage < c.numStages) (iter : ℕ)
    (h : ∀ e ∈ targets c wid (stage + 1), e.Exists c.numWorkers c.numAuxWorkers) :
    EndIterQueuesExist c wid iter stage := by
  intro env st _ fuel e he
  refine h e (mem_usesOf_of_stable env (S := (· ∈ targets c wid (stage + 1))) ?_ he)
  intro P hP
  refine hP.endIter ?_ (mem_targets.2 (.inr rfl)) iter
  intro i hi hlt
  rw [asUnsigned_succ hs] at hi
  exact mem_targets.2 (.inl ⟨i, hi, hlt, rfl⟩)

/-- Eight pages are too many. -/
theorem not_endIterDelivers {iter : ℕ} (hs : wid < c.numStages)
    (hexist : EndIterQueuesExist c wid iter wid)
    (hpages : 7 < c.numGlobals + c.numHeaps + c.numStacks) : ¬ EndIterDelivers c wid iter wid := by
  intro h
  have hreached := Reached.begin c Env.bump
  have hclean := (beginInvocation_clean c).queue
  have hcap : queueSize / 2 = 8192 := by decide
  obtain ⟨st', hst', hdelivers⟩ := h Env.bump _ hreached 1 Nat.one_pos
  obtain ⟨st'', hst'', hlengths⟩ :=
    endIter_delivers wid hreached Nat.one_pos iter wid hexist.targets
  obtain rfl : st' = st'' := Except.ok.inj (hst'.symm.trans hst'')
  -- the queue to the aux worker of the same number takes all packets
  have htarget : Entry.queue wid wid ∈ targets c wid (wid + 1) := mem_targets.2 (.inr rfl)
  have hcount : (iterTargets c wid wid).count (.queue wid wid) = _ := count_iterTargets hs
  rw [if_pos ⟨rfl, htarget⟩] at hcount
  have hqueue := hexist.targets (.queue wid wid) (List.count_pos_iff.1 (by omega))
  have hlength := (hlengths (.queue wid wid)).1
  have hne : producedTo (.queue wid wid) st'.log ≠ [] := by
    intro hnil
    rw [hnil, List.length_nil] at hlength
    omega
  have hfits := (hdelivers _ ((hreached.ptr_ne_zero_iff _).2 hqueue)
    (by rw [hclean]; exact emptyQueue_isEmpty) hne).1
  omega

/-- **What fits is delivered.**  A call of `end_iter` whose queues exist delivers
    to every one of them if and only if it forwards nothing, or at most seven
    pages. -/
theorem endIterDelivers_iff (c : Config) {wid stage : ℕ} (hs : stage < c.numStages) (iter : ℕ)
    (hexist : EndIterQueuesExist c wid iter stage) :
    EndIterDelivers c wid iter stage ↔
      wid ≠ stage ∨ c.numGlobals + c.numHeaps + c.numStacks ≤ 7 := by
  constructor
  · intro h
    by_contra hc
    push Not at hc
    obtain ⟨rfl, hpages⟩ := hc
    exact not_endIterDelivers hs hexist hpages h
  · intro h env st hst fuel hf
    have hcap : queueSize / 2 = 8192 := by decide
    obtain ⟨st', hst', hlengths⟩ := endIter_delivers wid hst hf iter stage hexist.targets
    refine ⟨st', hst', ?_⟩
    intro e he hempty _
    refine (hlengths e).2 he hempty ?_
    rw [count_iterTargets hs]
    split_ifs with htarget
    · have hpages := h.resolve_left fun hne => hne htarget.1
      omega
    · exact Nat.zero_le _

/-- Two workers, each with a stage of its own, and six pages. -/
def Config.twoStages : Config where
  numAuxWorkers := 10
  numHeaps := 2
  numGlobals := 2
  numStacks := 2
  maxGlobalSize := 0x1000
  maxStackSize := 0x1000
  maxHeapSize := 0x1000
  numWorkersPerHeap := 1
  firstWidOfStage stage := stage.toNat
  aux_lt := by decide
  perHeap_pos := Nat.one_pos
  heaps_lt := by decide

theorem endIterDelivers_iff_twoStages : EndIterDelivers .twoStages 0 0 0 :=
  (endIterDelivers_iff .twoStages (by decide) 0 (endIterQueuesExist_of_targets (by decide) 0
    ((targets_exist_iff (by decide)).2 (by decide)))).2 (.inr (by decide))

/-- The constants of the source, but with as many stages as workers and one
    worker for a stage, so that worker 0 uses only queues that exist. -/
def Config.tenStages : Config where
  numAuxWorkers := 2
  numHeaps := 10
  numGlobals := 20
  numStacks := 20
  maxGlobalSize := 0x1000
  maxStackSize := 0x1000
  maxHeapSize := 0x1000
  numWorkersPerHeap := 1
  firstWidOfStage stage := stage.toNat
  aux_lt := default_aux_lt
  perHeap_pos := Nat.one_pos
  heaps_lt := by decide

/-- Worker 0 sends 51300 packets to every queue in the iteration that it makes. -/
theorem not_neverOverwrites : ¬ Config.tenStages.NeverOverwrites := by
  intro h
  have hexist : EndIterQueuesExist .tenStages 0 0 0 :=
    endIterQueuesExist_of_targets (by decide) 0 ((targets_exist_iff (by decide)).2 (by decide))
  exact not_endIterDelivers (by decide) hexist (by decide) (h 0 (by decide) 0 (by decide) 0 hexist)

end SpecPriv.Trans
