/-
  The queues that the calls use.

  A call uses a place of the tables when it produces to it or consumes from it;
  where there is no queue, that use is its last one.
  The tables are a triangle of pairs of workers, and a row of aux workers for
  every worker; the calls index them by stages, by the worker 0, and by the
  worker itself.  `usesExist_iff`: when all places that a call uses lead to a
  queue.
-/
import SpecPriv.Trans.Invariant

namespace SpecPriv.Trans

open Stopping

variable {c : Config} {env : Env} {fuel wid n a : ℕ} {st st' : State} {e : Entry} {es : List Entry}

/-- The place of an event. -/
def Event.entry? : Event → Option Entry
  | produce e _ => some e
  | consume e _ => some e
  | _ => none

/-- The places that a log uses, latest first. -/
def uses (log : List Event) : List Entry := log.filterMap Event.entry?

/-- The places that a program uses, wherever it ends. -/
def usesOf (f : State → Except State State) (st : State) : List Entry :=
  uses (last (f { st with log := [] })).log

/-- From every state reached, and with any fuel, a call uses only places where
    `init_queues` created a queue. -/
def UsesExist (c : Config) (call : Env → ℕ → State → Except State State) : Prop :=
  ∀ env st, Reached c env st → ∀ fuel, ∀ e ∈ usesOf (call env fuel) st,
    e.Exists c.numWorkers c.numAuxWorkers

/-- Every queue that the faithful translation uses exists. -/
def Config.QueuesExist (c : Config) : Prop :=
  ∀ wid < c.numWorkers, ∀ stage < c.numStages,
    (∀ shadowSize : ℤ,
      UsesExist c fun env fuel => forwardPacket c env fuel wid shadowSize stage) ∧
    ∀ iter isMyIter, .beginIter wid iter stage isMyIter ∈ c.mainCalls →
      UsesExist c fun env fuel => beginIter c env fuel wid iter stage isMyIter

/-! ## What is used -/

/-- A program that uses only places of a kind has used only such places. -/
theorem stable_uses (S : Entry → Prop) : Stable env S fun st => ∀ e ∈ uses st.log, S e where
  send _ _ _ _ _ he hst := by
    rw [sendPacket_log]
    exact List.forall_mem_cons.2 ⟨he, hst⟩
  consume _ _ he hst := by
    rw [afterConsume_log]
    exact List.forall_mem_cons.2 ⟨he, hst⟩
  clearPtr _ _ hst := hst
  pool _ _ _ _ hst := hst
  commitPool _ _ _ hst := hst

/-- A place that was used stays used. -/
theorem stable_mem_uses (e : Entry) : Stable env (fun _ => True) fun st => e ∈ uses st.log where
  send _ _ _ _ _ _ hst := by
    rw [sendPacket_log]
    exact List.mem_cons_of_mem _ hst
  consume _ _ _ hst := by
    rw [afterConsume_log]
    exact List.mem_cons_of_mem _ hst
  clearPtr _ _ hst := hst
  pool _ _ _ _ hst := hst
  commitPool _ _ _ hst := hst

theorem mem_usesOf_of_stable (env : Env) {S : Entry → Prop} {f : State → Except State State}
    (h : ∀ P, Stable env S P → Keeps P f) (he : e ∈ usesOf f st) : S e :=
  h _ (stable_uses S) { st with log := [] } (by simp [uses]) e he

theorem sendAll_keeps {P : State → Prop} (h : Stable env (fun _ => True) P) (es : List Entry) :
    Keeps P (sendAll env wid es) :=
  Keeps.foldlM fun e _ st => h.send wid typeSuper e st (by decide) trivial

/-- What was sent to several places has used them. -/
theorem sendAll_uses : ∀ {es : List Entry} {st st' : State}, sendAll env wid es st = .ok st' →
    uses st'.log = es.reverse ++ uses st.log
  | [], st, st', h => by
    obtain rfl := Except.ok.inj h
    rfl
  | e :: es, st, st', h => by
    have hlog := sendPacket_log env wid typeSuper e st
    rw [sendAll_cons] at h
    obtain ⟨s, hs, hrest⟩ := bind_eq_ok h
    rw [hs, last_ok] at hlog
    rw [sendAll_uses hrest, hlog, List.reverse_cons, List.append_assoc]
    rfl

theorem Sent.uses_eq (h : Sent env wid es st st') : uses st'.log = es.reverse ++ uses st.log := by
  have huses : uses st'.core.log = es.reverse ++ uses st.core.log := sendAll_uses h
  exact huses

/-- Sending uses its places up to the first one without a queue, and that one:
    if all that are used have a queue, all have. -/
theorem ptr_ne_zero_of_sendAll : ∀ {es : List Entry} {st : State}, Idle st →
    (∀ e ∈ uses (last (sendAll env wid es st)).log, e.ptr st.heap ≠ 0) →
      ∀ e ∈ es, e.ptr st.heap ≠ 0
  | [], _, _, _ => fun _ he => absurd he List.not_mem_nil
  | e :: es, st, h, huses => by
    have hused : e ∈ uses (last (sendPacket env wid typeSuper e st)).log := by
      rw [sendPacket_log]
      exact List.mem_cons_self
    have he : e.ptr st.heap ≠ 0 :=
      huses e ((sendAll_keeps (stable_mem_uses e) es).last_bind hused)
    have hsend : ∃ s, sendPacket env wid typeSuper e st = .ok s ∧ Idle s := h.sends he typeSuper
    obtain ⟨s, hs, hidle⟩ := hsend
    have hheap := sendPacket_heap env wid typeSuper e st
    rw [hs, last_ok] at hheap
    rw [sendAll_cons, hs, bind_ok, ← hheap] at huses
    have hrest := ptr_ne_zero_of_sendAll hidle huses
    rw [hheap] at hrest
    exact List.forall_mem_cons.2 ⟨he, hrest⟩

/-- If a program uses only places with a queue, all places that it sends to have one. -/
theorem UsesExist.of_sends {call : Env → ℕ → State → Except State State} (h : UsesExist c call)
    (hsends : Sends Env.bump wid es (call Env.bump 1)) :
    ∀ e ∈ es, e.Exists c.numWorkers c.numAuxWorkers := by
  have hbuilt := beginInvocation_built c .init
  have hidle : Idle { beginInvocation c .init with log := [] } :=
    ⟨(beginInvocation_idle c).pool, (beginInvocation_idle c).commitPool,
      (beginInvocation_idle c).queue⟩
  have hcore := hsends.core _ hidle
  have huses : ∀ e ∈ uses (last (sendAll Env.bump wid es
      { beginInvocation c .init with log := [] }.core)).log,
        e.ptr (beginInvocation c .init).heap ≠ 0 := by
    rw [← hcore, last_see]
    exact fun e he => (hbuilt.ptr_ne_zero_iff e).2 (h Env.bump _ (.begin c _) 1 e he)
  exact fun e he => (hbuilt.ptr_ne_zero_iff e).1 (ptr_ne_zero_of_sendAll hidle.core huses e he)

theorem mem_targets {start : ℕ} : e ∈ targets c wid start ↔
    (∃ i, start ≤ i ∧ i < c.numStages ∧ e = .ucvf wid i) ∨ e = .queue wid wid := by
  simp only [targets, List.mem_append, List.mem_flatMap, List.mem_range, List.mem_singleton,
    Nat.one_mul]
  refine or_congr_left ⟨?_, ?_⟩
  · rintro ⟨k, hk, rfl⟩
    exact ⟨start + k, by omega, by omega, rfl⟩
  · rintro ⟨i, hi, hlt, rfl⟩
    exact ⟨i - start, by omega, by rw [Nat.add_sub_cancel' hi]⟩

/-! ## `forward_packet` -/

theorem asUnsigned_natCast {x : ℕ} (h : x < 2 ^ 32) : asUnsigned x = x := by
  unfold asUnsigned
  omega

theorem asUnsigned_succ {stage : ℕ} (h : stage < c.numStages) :
    asUnsigned (stage + 1) = stage + 1 := by
  have := c.heaps_lt
  unfold Config.numStages at h
  exact asUnsigned_natCast (x := stage + 1) (by omega)

theorem forwardPacket_usesExist_iff {stage : ℕ} (hs : stage < c.numStages) (shadowSize : ℤ) :
    (UsesExist c fun env fuel => forwardPacket c env fuel wid shadowSize stage) ↔
      ∀ e ∈ targets c wid (stage + 1), e.Exists c.numWorkers c.numAuxWorkers := by
  constructor
  · intro h
    have hsends := h.of_sends (forwardPacket_sends Nat.one_pos shadowSize stage)
    rwa [asUnsigned_succ hs] at hsends
  · intro h env st _ fuel e he
    refine h e (mem_usesOf_of_stable env (S := (· ∈ targets c wid (stage + 1))) ?_ he)
    intro P hP
    refine hP.forwardPacket ?_ (mem_targets.2 (.inr rfl)) shadowSize
    intro i hi hlt
    rw [asUnsigned_succ hs] at hi
    exact mem_targets.2 (.inl ⟨i, hi, hlt, rfl⟩)

/-- The targets from a stage on exist. -/
theorem targets_exist_iff {stage : ℕ} (hw : wid < c.numWorkers) :
    (∀ e ∈ targets c wid (stage + 1), e.Exists c.numWorkers c.numAuxWorkers) ↔
      (stage + 1 < c.numStages → wid ≤ stage ∧ c.numStages ≤ c.numWorkers) ∧
        wid < c.numAuxWorkers := by
  constructor
  · intro h
    have hqueue := (h _ (mem_targets.2 (.inr rfl))).2
    refine ⟨?_, hqueue⟩
    intro hlt
    have hfirst := h _ (mem_targets.2 (.inl ⟨stage + 1, le_rfl, hlt, rfl⟩))
    have hlast := h _ (mem_targets.2 (.inl ⟨c.numStages - 1, by omega, by omega, rfl⟩))
    have := hfirst.1
    have := hlast.2
    omega
  · rintro ⟨hstage, hqueue⟩ e he
    rcases mem_targets.1 he with ⟨i, hi, hlt, rfl⟩ | rfl
    · obtain ⟨hle, hle'⟩ := hstage (by omega)
      exact ⟨by omega, by omega⟩
    · exact ⟨hw, hqueue⟩

/-! ## `begin_iter` -/

/-- A worker that receives consumes from its entry, also when it is null. -/
theorem mem_usesOf_beginIter {iter stage isMyIter : ℕ} (hstage : stage ≠ 0)
    (h0 : (Entry.ucvf 0 wid).ptr st.heap = 0) :
    .ucvf 0 wid ∈ usesOf (beginIter c env 1 wid iter stage isMyIter) st := by
  obtain ⟨n, rfl⟩ := Nat.exists_eq_succ_of_ne_zero hstage
  have hstop : receiveAll (.ucvf 0 wid) 1 { st with log := [] } =
      .error (consumed (.ucvf 0 wid) { st with log := [] }) := by
    rcases swQueueConsume_cases (.ucvf 0 wid) { st with log := [] } with
      ⟨-, heq⟩ | ⟨v, q, hne, -⟩
    · rw [receiveAll, receivePacket, consumePacket, heq]
      rfl
    · exact absurd h0 hne
  rw [usesOf, beginIter, Stopping.forLoop, Loop.rounds_one, Nat.sub_zero]
  rw [forN_error hstop n, bind_error, last_error]
  exact List.mem_cons_self

theorem beginIter_usesExist_iff {stage : ℕ} (hw : wid < c.numWorkers) (iter isMyIter : ℕ) :
    (UsesExist c fun env fuel => beginIter c env fuel wid iter stage isMyIter) ↔
      stage = 0 ∨ wid ≠ 0 := by
  constructor
  · intro h
    by_contra hc
    push Not at hc
    obtain ⟨hstage, rfl⟩ := hc
    have hmissing : (Entry.ucvf 0 0).ptr (beginInvocation c .init).heap = 0 := by
      have hbuilt := (beginInvocation_built c .init).ptr_ne_zero_iff (.ucvf 0 0)
      exact not_not.1 fun hne => absurd (hbuilt.1 hne).1 (Nat.lt_irrefl 0)
    exact absurd (h Env.bump _ (.begin c _) 1 _ (mem_usesOf_beginIter hstage hmissing)).1
      (Nat.lt_irrefl 0)
  · intro h env st _ fuel e he
    refine mem_usesOf_of_stable env ?_ he
    intro P hP
    refine hP.beginIter ?_ (fun i hi => ⟨hw, hi⟩) isMyIter
    intro hpos
    exact ⟨by omega, hw⟩

/-- **The queues that are used.**  The entries that `forward_packet` uses exist
    if and only if the worker has an aux worker of its own number and, unless it
    is called in the last stage, no larger number than the stage, and there are
    no more stages than workers.  Those that `begin_iter` uses exist if and only
    if it receives nothing or is called for another worker than 0. -/
theorem usesExist_iff (c : Config) {wid stage : ℕ} (hw : wid < c.numWorkers)
    (hs : stage < c.numStages) :
    (∀ shadowSize : ℤ, (UsesExist c fun env fuel => forwardPacket c env fuel wid shadowSize stage) ↔
      (stage + 1 < c.numStages → wid ≤ stage ∧ c.numStages ≤ c.numWorkers) ∧
        wid < c.numAuxWorkers) ∧
    ∀ iter isMyIter, (UsesExist c fun env fuel => beginIter c env fuel wid iter stage isMyIter) ↔
      stage = 0 ∨ wid ≠ 0 :=
  ⟨fun shadowSize => (forwardPacket_usesExist_iff hs shadowSize).trans (targets_exist_iff hw),
    beginIter_usesExist_iff hw⟩

/-- The last stage of worker 0, with the constants of the source. -/
theorem usesExist_iff_default :
    (∀ shadowSize : ℤ, (UsesExist .default fun env fuel =>
        forwardPacket .default env fuel 0 shadowSize (19 : ℕ)) ↔
      (19 + 1 < Config.default.numStages → 0 ≤ 19 ∧ Config.default.numStages ≤
        Config.default.numWorkers) ∧ 0 < Config.default.numAuxWorkers) ∧
    ∀ iter isMyIter, (UsesExist .default fun env fuel =>
      beginIter .default env fuel 0 iter 19 isMyIter) ↔ 19 = 0 ∨ 0 ≠ 0 :=
  usesExist_iff .default (by decide) (by decide)

/-- With the constants of the source, worker 0 sends to a place for a tenth worker. -/
theorem not_queuesExist : ¬ Config.default.QueuesExist := by
  intro h
  have hforward := (h 0 (by decide) 0 (by decide)).1 0
  have hexist := (forwardPacket_usesExist_iff (by decide) 0).1 hforward
  have := (hexist (.ucvf 0 10) (mem_targets.2 (.inl ⟨10, by decide, by decide, rfl⟩))).2
  exact absurd this (by decide)

end SpecPriv.Trans
