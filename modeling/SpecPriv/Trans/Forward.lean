/-
  What the functions that forward packets do.

  Nothing marks a packet of a pool as used, so every search ends at once
  (`Idle`).  All that remains of a call is the list of places it sends a packet
  to, one after the other until one of them has no queue:
  `forwardPacket_sends`, `forwardPair_sends` and `endIter_sends`.
-/
import SpecPriv.Trans.Calls
import SpecPriv.Trans.Tables

namespace SpecPriv.Trans

open Loop Stopping

variable {c : Config} {env : Env} {fuel wid n : ℕ} {st st' st'' : State} {e : Entry}
  {es es' : List Entry}

/-! ## Producing and consuming -/

section Produce

variable (e : Entry) (v : Cell64) (st : State)

/-- What is recorded of a produce. -/
def recorded (e : Entry) (v : Cell64) (st : State) : State := st.record (.produce e v)

/-- A produce stops where there is no queue, or does what the queue does. -/
theorem swQueueProduce_cases :
    ((e.ptr st.heap = 0 ∨ SpecPriv.swQueueProduce (st.queue (e.ptr st.heap)) v = none) ∧
      swQueueProduce e v st = .error (recorded e v st)) ∨
    ∃ q, e.ptr st.heap ≠ 0 ∧ SpecPriv.swQueueProduce (st.queue (e.ptr st.heap)) v = some q ∧
      swQueueProduce e v st = .ok ((recorded e v st).setQueue (e.ptr st.heap) q) := by
  unfold swQueueProduce
  dsimp only [State.record_queue]
  by_cases h0 : e.ptr st.heap = 0
  · left
    rw [if_pos h0]
    exact ⟨.inl h0, rfl⟩
  · rw [if_neg h0]
    cases hq : SpecPriv.swQueueProduce (st.queue (e.ptr st.heap)) v with
    | none => exact .inl ⟨.inr rfl, rfl⟩
    | some q => exact .inr ⟨q, h0, rfl, rfl⟩

/-- Wherever it ends, a produce changes nothing but a queue. -/
theorem swQueueProduce_same {α : Type*} (f : State → α) (hrecord : ∀ ev st, f (st.record ev) = f st)
    (hqueue : ∀ p q st, f (st.setQueue p q) = f st) : f (last (swQueueProduce e v st)) = f st := by
  rcases swQueueProduce_cases e v st with ⟨-, heq⟩ | ⟨q, -, -, heq⟩
  · rw [heq]
    exact hrecord _ st
  · rw [heq, last_ok, hqueue]
    exact hrecord _ st

theorem swQueueProduce_log : (last (swQueueProduce e v st)).log = .produce e v :: st.log := by
  rcases swQueueProduce_cases e v st with ⟨-, heq⟩ | ⟨q, -, -, heq⟩
  · rw [heq]
    rfl
  · rw [heq]
    rfl

/-- Only the queue in the place changes, and only if there is one. -/
theorem swQueueProduce_queue (p : ℕ) : (last (swQueueProduce e v st)).queue p =
    if p = e.ptr st.heap ∧ p ≠ 0 then (SpecPriv.swQueueProduce (st.queue p) v).getD (st.queue p)
    else st.queue p := by
  rcases swQueueProduce_cases e v st with ⟨hstop, heq⟩ | ⟨q, h0, hq, heq⟩
  · rw [heq]
    show st.queue p = _
    split_ifs with hp
    · obtain ⟨rfl, h0⟩ := hp
      rw [hstop.resolve_left h0, Option.getD_none]
    · rfl
  · rw [heq]
    show Function.update st.queue (e.ptr st.heap) q p = _
    by_cases hp : p = e.ptr st.heap
    · subst hp
      rw [Function.update_self, if_pos ⟨rfl, h0⟩, hq, Option.getD_some]
    · rw [Function.update_of_ne hp, if_neg fun hc => hp hc.1]

/-- What is recorded of a consume. -/
def consumed (e : Entry) (st : State) : State := st.record (.consume e (nothingAt e st))

/-- A consume stops where there is no queue, or gives what the queue gives. -/
theorem swQueueConsume_cases :
    ((e.ptr st.heap = 0 ∨ SpecPriv.swQueueConsume (st.queue (e.ptr st.heap)) = none) ∧
      swQueueConsume e st = .error (consumed e st)) ∨
    ∃ v q, e.ptr st.heap ≠ 0 ∧ SpecPriv.swQueueConsume (st.queue (e.ptr st.heap)) = some (v, q) ∧
      swQueueConsume e st = .ok (v, (consumed e st).setQueue (e.ptr st.heap) q) := by
  unfold swQueueConsume
  dsimp only [State.record_queue]
  by_cases h0 : e.ptr st.heap = 0
  · left
    rw [if_pos h0]
    exact ⟨.inl h0, rfl⟩
  · rw [if_neg h0]
    cases hq : SpecPriv.swQueueConsume (st.queue (e.ptr st.heap)) with
    | none => exact .inl ⟨.inr rfl, rfl⟩
    | some r => exact .inr ⟨r.1, r.2, h0, rfl, rfl⟩

/-- The state in which a consume ends. -/
def afterConsume (e : Entry) (st : State) : State := lastVal (swQueueConsume e st)

/-- Wherever it ends, a consume changes nothing but a queue. -/
theorem afterConsume_same {α : Type*} (f : State → α) (hrecord : ∀ ev st, f (st.record ev) = f st)
    (hqueue : ∀ p q st, f (st.setQueue p q) = f st) : f (afterConsume e st) = f st := by
  unfold afterConsume
  rcases swQueueConsume_cases e st with ⟨-, heq⟩ | ⟨v, q, -, -, heq⟩
  · rw [heq]
    exact hrecord _ st
  · rw [heq, lastVal_ok, hqueue]
    exact hrecord _ st

theorem afterConsume_heap : (afterConsume e st).heap = st.heap :=
  afterConsume_same e st State.heap (fun _ _ => rfl) fun _ _ _ => rfl

theorem afterConsume_log : (afterConsume e st).log = .consume e (nothingAt e st) :: st.log := by
  unfold afterConsume
  rcases swQueueConsume_cases e st with ⟨-, heq⟩ | ⟨v, q, -, -, heq⟩
  · rw [heq]
    rfl
  · rw [heq]
    rfl

/-- Only the queue in the place changes, and only if there is one. -/
theorem afterConsume_queue (p : ℕ) : (afterConsume e st).queue p =
    if p = e.ptr st.heap ∧ p ≠ 0 then
      ((SpecPriv.swQueueConsume (st.queue p)).map Prod.snd).getD (st.queue p)
    else st.queue p := by
  unfold afterConsume
  rcases swQueueConsume_cases e st with ⟨hstop, heq⟩ | ⟨v, q, h0, hq, heq⟩
  · rw [heq]
    show st.queue p = _
    split_ifs with hp
    · obtain ⟨rfl, h0⟩ := hp
      rw [hstop.resolve_left h0]
      rfl
    · rfl
  · rw [heq]
    show Function.update st.queue (e.ptr st.heap) q p = _
    by_cases hp : p = e.ptr st.heap
    · subst hp
      rw [Function.update_self, if_pos ⟨rfl, h0⟩, hq]
      rfl
    · rw [Function.update_of_ne hp, if_neg fun hc => hp hc.1]

/-- Whether a queue is empty is told where there is one. -/
theorem swQueueEmpty_cases : swQueueEmpty e st = .error st ∨
    ∃ empty, swQueueEmpty e st = .ok empty := by
  unfold swQueueEmpty
  dsimp only
  split_ifs
  · exact .inl rfl
  · cases SpecPriv.swQueueEmpty (st.queue (e.ptr st.heap)) with
    | none => exact .inl rfl
    | some empty => exact .inr ⟨_, rfl⟩

end Produce

/-! ## Sending -/

section Send

variable (env wid) (type : ℤ) (e : Entry) (st : State)

/-- Wherever it ends, sending a packet changes nothing but packets and a queue. -/
theorem sendPacket_same {α : Type*} (f : State → α) (hrecord : ∀ ev st, f (st.record ev) = f st)
    (hqueue : ∀ p q st, f (st.setQueue p q) = f st)
    (hcreate : f (createPacket env wid type st).2 = f st) :
    f (last (sendPacket env wid type e st)) = f st :=
  (swQueueProduce_same e _ _ f hrecord hqueue).trans hcreate

theorem sendPacket_heap : (last (sendPacket env wid type e st)).heap = st.heap :=
  sendPacket_same env wid type e st State.heap (fun _ _ => rfl) (fun _ _ _ => rfl) rfl

theorem sendPacket_log : (last (sendPacket env wid type e st)).log =
    .produce e (env.address st.created) :: st.log :=
  swQueueProduce_log _ _ _

/-- A packet changes the queue that it is sent to. -/
theorem sendPacket_queue (e' : Entry) (type : ℤ) (he : e.ptr st.heap ≠ 0) :
    (last (sendPacket env wid type e' st)).queue (e.ptr st.heap) =
      if e' = e then (SpecPriv.swQueueProduce (st.queue (e.ptr st.heap))
        (env.address st.created)).getD (st.queue (e.ptr st.heap))
      else st.queue (e.ptr st.heap) := by
  rw [sendPacket, swQueueProduce_queue]
  have hsame : e.ptr st.heap = e'.ptr st.heap ↔ e' = e := by
    constructor
    · intro heq
      exact (Entry.ptr_inj he heq).symm
    · rintro rfl
      rfl
  simp only [createPacket, hsame, ne_eq, he, not_false_eq_true, and_true]

end Send

/-- All packets of the pools are available, and no queue leaves its ring. -/
structure Idle (st : State) : Prop where
  pool : ∀ wid i, (st.pool wid).ptr i = 0#64
  commitPool : ∀ i, st.commitPool.ptr i = 0#64
  queue : ∀ p, AtSlots (queueSize / 2) (st.queue p)

theorem queueSize_eq : queueSize = 2 * (queueSize / 2) := by decide

theorem Idle.sendPacket (h : Idle st) (type : ℤ) (e : Entry) :
    Idle (last (sendPacket env wid type e st)) := by
  refine ⟨?_, ?_, ?_⟩
  · rw [sendPacket_same env wid type e st State.pool (fun _ _ => rfl) (fun _ _ _ => rfl) rfl]
    exact h.pool
  · rw [sendPacket_same env wid type e st State.commitPool (fun _ _ => rfl) (fun _ _ _ => rfl) rfl]
    exact h.commitPool
  · intro p
    rw [Trans.sendPacket, swQueueProduce_queue]
    split_ifs
    · obtain ⟨q, hq, hslots, -⟩ := produce_atSlots queueSize_eq (h.queue p) (env.address st.created)
      simp only [createPacket, hq]
      exact hslots
    · exact h.queue p

theorem Idle.afterConsume (h : Idle st) (e : Entry) : Idle (afterConsume e st) := by
  refine ⟨?_, ?_, ?_⟩
  · rw [afterConsume_same e st State.pool (fun _ _ => rfl) fun _ _ _ => rfl]
    exact h.pool
  · rw [afterConsume_same e st State.commitPool (fun _ _ => rfl) fun _ _ _ => rfl]
    exact h.commitPool
  · intro p
    rw [afterConsume_queue]
    split_ifs
    · obtain ⟨t, -, q, hq, hslots, -⟩ := consume_atSlots queueSize_eq (h.queue p)
      rw [hq]
      exact hslots
    · exact h.queue p

/-- A pool may advance. -/
theorem Idle.setPool (h : Idle st) {w : ℕ} {pool : Pool} (hptr : pool.ptr = (st.pool w).ptr) :
    Idle { st with pool := Function.update st.pool w pool } := by
  refine ⟨?_, h.commitPool, h.queue⟩
  intro w' i
  by_cases hw : w' = w
  · subst hw
    simpa [hptr] using h.pool w' i
  · simpa [hw] using h.pool w' i

/-- A packet is sent where there is a queue. -/
theorem Idle.sends (h : Idle st) (he : e.ptr st.heap ≠ 0) (type : ℤ) :
    ∃ st', Trans.sendPacket env wid type e st = .ok st' ∧ Idle st' := by
  have hidle : Idle (last (Trans.sendPacket env wid type e st)) := h.sendPacket type e
  obtain ⟨q, hq, -⟩ := produce_atSlots queueSize_eq (h.queue (e.ptr st.heap))
    (env.address st.created)
  rcases swQueueProduce_cases e (env.address st.created) (createPacket env wid type st).2 with
    ⟨h0 | hnone, -⟩ | ⟨q', -, -, heq⟩
  · exact absurd h0 he
  · exact nomatch hq.symm.trans hnone
  · have hsend : Trans.sendPacket env wid type e st = .ok _ := heq
    rw [hsend] at hidle
    exact ⟨_, hsend, hidle⟩

/-- The state without the pools. -/
def State.core (st : State) : State := { st with pool := fun _ => .mapped, commitPool := .mapped }

theorem Idle.core (h : Idle st) : Idle st.core := ⟨fun _ _ => rfl, fun _ => rfl, h.queue⟩

theorem swQueueProduce_core (e : Entry) (v : Cell64) (st : State) :
    see State.core (swQueueProduce e v st) = swQueueProduce e v st.core := by
  rcases swQueueProduce_cases e v st with ⟨hstop, heq⟩ | ⟨q, h0, hq, heq⟩
  · rcases swQueueProduce_cases e v st.core with ⟨-, heq'⟩ | ⟨q', h0, hq', -⟩
    · rw [heq, heq']
      rfl
    · exact absurd (hq'.symm.trans (hstop.resolve_left h0)) nofun
  · rcases swQueueProduce_cases e v st.core with ⟨h0' | hnone, -⟩ | ⟨q', -, hq', heq'⟩
    · exact absurd h0' h0
    · exact absurd (hq.symm.trans hnone) nofun
    · obtain rfl : q = q' := Option.some.inj (hq.symm.trans hq')
      rw [heq, heq']
      rfl

/-- Send a packet to several places. -/
def sendAll (env : Env) (wid : ℕ) (es : List Entry) (st : State) : Except State State :=
  es.foldlM (fun st e => sendPacket env wid typeSuper e st) st

theorem sendAll_cons (e : Entry) (es : List Entry) (st : State) : sendAll env wid (e :: es) st =
    sendPacket env wid typeSuper e st >>= sendAll env wid es :=
  List.foldlM_cons

theorem sendAll_append (es es' : List Entry) (st : State) : sendAll env wid (es ++ es') st =
    sendAll env wid es st >>= sendAll env wid es' :=
  List.foldlM_append

/-- Sending goes on as long as there are queues. -/
theorem sendAll_returns : ∀ {es : List Entry} {st : State}, Idle st →
    (∀ e ∈ es, e.ptr st.heap ≠ 0) → ∃ st', sendAll env wid es st = .ok st'
  | [], st, _, _ => ⟨st, rfl⟩
  | e :: es, st, h, hes => by
    obtain ⟨s, hs, hidle⟩ := h.sends (hes e List.mem_cons_self) typeSuper
    have hheap := sendPacket_heap env wid typeSuper e st
    rw [hs, last_ok] at hheap
    rw [sendAll_cons, hs, bind_ok]
    refine sendAll_returns hidle ?_
    intro e' he'
    rw [hheap]
    exact hes e' (List.mem_cons_of_mem e he')

/-- Where packets were sent there were queues. -/
theorem sendAll_ptr : ∀ {es : List Entry} {st st' : State}, sendAll env wid es st = .ok st' →
    st'.heap = st.heap ∧ ∀ e ∈ es, e.ptr st.heap ≠ 0
  | [], st, st', h => by
    obtain rfl := Except.ok.inj h
    exact ⟨rfl, fun _ he => absurd he List.not_mem_nil⟩
  | e :: es, st, st', h => by
    have hheap := sendPacket_heap env wid typeSuper e st
    rw [sendAll_cons] at h
    obtain ⟨s, hs, hrest⟩ := bind_eq_ok h
    obtain ⟨hsame, hes⟩ := sendAll_ptr hrest
    rw [hs, last_ok] at hheap
    rw [hheap] at hsame hes
    rcases swQueueProduce_cases e (env.address st.created)
        (createPacket env wid typeSuper st).2 with ⟨-, heq⟩ | ⟨-, he, -⟩
    · exact absurd (hs.symm.trans heq) nofun
    · exact ⟨hsame, List.forall_mem_cons.2 ⟨he, hes⟩⟩

/-- Packets were sent to several places, and the pools have only advanced. -/
def Sent (env : Env) (wid : ℕ) (es : List Entry) (st st' : State) : Prop :=
  sendAll env wid es st.core = .ok st'.core

theorem Sent.heap (h : Sent env wid es st st') : st'.heap = st.heap := by
  obtain ⟨hheap, -⟩ := sendAll_ptr h
  exact hheap

theorem Sent.ptr_ne_zero (h : Sent env wid es st st') (he : e ∈ es) : e.ptr st.heap ≠ 0 := by
  obtain ⟨-, hes⟩ := sendAll_ptr h
  exact hes e he

/-- The program sends packets to several places, until there is no queue in one
    of them, and the pools only advance. -/
structure Sends (env : Env) (wid : ℕ) (es : List Entry) (f : State → Except State State) :
    Prop where
  idle : Keeps Idle f
  core : ∀ st, Idle st → see State.core (f st) = sendAll env wid es st.core

namespace Sends

variable {f g : State → Except State State}

theorem ok : Sends env wid [] Except.ok := ⟨Keeps.ok, fun _ _ => rfl⟩

/-- A sequence of programs. -/
theorem bind (hf : Sends env wid es f) (hg : Sends env wid es' g) :
    Sends env wid (es ++ es') fun st => f st >>= g := by
  refine ⟨hf.idle.bind hg.idle, ?_⟩
  intro st hst
  have hfirst := hf.core st hst
  have hidle := hf.idle st hst
  rw [sendAll_append, ← hfirst]
  cases hr : f st with
  | error s => rfl
  | ok s =>
    rw [hr] at hidle
    exact hg.core s hidle

theorem forN {body : ℕ → State → Except State State} {es : ℕ → List Entry}
    (h : ∀ k < n, Sends env wid (es k) (body k)) :
    Sends env wid ((List.range n).flatMap es) (Stopping.forN n body) := by
  induction n with
  | zero => exact ok
  | succ n ih =>
    rw [List.range_succ, List.flatMap_append, List.flatMap_singleton]
    exact (ih fun k hk => h k (hk.trans n.lt_succ_self)).bind (h n n.lt_succ_self)

/-- What a program has sent when it returns. -/
theorem sent (h : Sends env wid es f) (hst : Idle st) (hok : f st = .ok st') :
    Sent env wid es st st' := by
  have hcore := h.core st hst
  rw [hok] at hcore
  exact hcore.symm

/-- It returns when all the queues exist. -/
theorem returns (h : Sends env wid es f) (hst : Idle st) (hes : ∀ e ∈ es, e.ptr st.heap ≠ 0) :
    ∃ st', f st = .ok st' ∧ Idle st' := by
  have hidle := h.idle st hst
  obtain ⟨s, hs⟩ := sendAll_returns hst.core hes
  have hcore := h.core st hst
  cases hr : f st with
  | error s' =>
    rw [hr, hs] at hcore
    cases hcore
  | ok s' =>
    rw [hr] at hidle
    exact ⟨s', rfl, hidle⟩

end Sends

theorem sendPacket_sends (e : Entry) : Sends env wid [e] (sendPacket env wid typeSuper e) := by
  refine ⟨fun st hst => hst.sendPacket typeSuper e, ?_⟩
  intro st _
  rw [sendAll_cons]
  exact (swQueueProduce_core e _ _).trans (bind_pure _).symm

/-! ## The searches -/

theorem search_idle {ptr : ℕ → Cell64} (h : ∀ i, ptr i = 0#64) (hf : 0 < fuel) (next : ℕ) :
    Pool.search ptr fuel next = some next := by
  obtain ⟨fuel, rfl⟩ := Nat.exists_eq_succ_of_ne_zero hf.ne'
  rw [Pool.search, if_pos (h next)]

theorem getAvailablePacket_sends (hf : 0 < fuel) (w : ℕ) :
    Sends env wid [] (getAvailablePacket fuel w) := by
  have heq (st : State) (h : Idle st) : getAvailablePacket fuel w st =
      .ok { st with
        pool := Function.update st.pool w ⟨Pool.succ (st.pool w).next, (st.pool w).ptr⟩ } := by
    have hsearch := search_idle (h.pool w) hf (st.pool w).next
    simp [getAvailablePacket, Pool.getAvailable, hsearch]
  refine ⟨?_, ?_⟩
  · intro st h
    rw [heq st h]
    exact h.setPool rfl
  · intro st h
    rw [heq st h]
    rfl

theorem getAvailableCommitProcessPacket_sends (hf : 0 < fuel) :
    Sends env wid [] (getAvailableCommitProcessPacket fuel) := by
  have heq (st : State) (h : Idle st) : getAvailableCommitProcessPacket fuel st =
      .ok { st with commitPool :=
        { st.commitPool with next := Pool.succ st.commitPool.next } } := by
    have hsearch := search_idle h.commitPool hf st.commitPool.next
    simp [getAvailableCommitProcessPacket, Pool.getAvailable, hsearch]
  refine ⟨?_, ?_⟩
  · intro st h
    rw [heq st h]
    exact ⟨h.pool, h.commitPool, h.queue⟩
  · intro st h
    rw [heq st h]
    rfl

/-! ## The calls -/

theorem forwardToStage_sends (hf : 0 < fuel) (myStage : ℤ) (i : ℕ) :
    Sends env wid [.ucvf wid i] (forwardToStage c env fuel wid myStage i) := by
  unfold forwardToStage
  by_cases hw : wid = c.firstWidOfStage myStage
  · simp only [if_pos hw]
    exact (getAvailableCommitProcessPacket_sends hf).bind (sendPacket_sends _)
  · simp only [if_neg hw]
    exact (getAvailablePacket_sends hf wid).bind (sendPacket_sends _)

/-- The places that `forward_packet` sends to, from a stage on. -/
def targets (c : Config) (wid start : ℕ) : List Entry :=
  ((List.range (c.numStages - start)).flatMap fun k => [.ucvf wid (start + 1 * k)]) ++
    [.queue wid wid]

theorem forwardPacket_sends (hf : 0 < fuel) (shadowSize myStage : ℤ) :
    Sends env wid (targets c wid (asUnsigned (myStage + 1)))
      (forwardPacket c env fuel wid shadowSize myStage) := by
  refine Sends.bind ?_ (sendPacket_sends _)
  unfold Stopping.forLoop
  rw [rounds_one]
  exact Sends.forN fun k _ => forwardToStage_sends hf myStage _

/-- The places that `forward_pair` sends to. -/
def pairTargets (es : List Entry) : List Entry :=
  es ++ (es ++ (List.range (rounds 0 pageSize 8)).flatMap fun _ => es ++ es)

theorem forwardPair_sends (hf : 0 < fuel) (shadowSize myStage : ℤ) :
    Sends env wid (pairTargets (targets c wid (asUnsigned (myStage + 1))))
      (forwardPair c env fuel wid shadowSize myStage) := by
  have hpacket (size : ℤ) : Sends env wid (targets c wid (asUnsigned (myStage + 1)))
      (forwardPacket c env fuel wid size myStage) := forwardPacket_sends hf size myStage
  refine (hpacket shadowSize).bind ((hpacket shadowSize).bind ?_)
  exact Sends.forN fun k _ => (hpacket 8).bind (hpacket 8)

/-- The places that the pages of one kind are sent to. -/
def pageTargets (n : ℕ) (es : List Entry) : List Entry :=
  (List.range n).flatMap fun _ => pairTargets es

theorem forwardPairs_sends (hf : 0 < fuel) (size : State → ℕ → ℤ) (myStage : ℤ) (n : ℕ) :
    Sends env wid (pageTargets n (targets c wid (asUnsigned (myStage + 1))))
      (Stopping.forLoop 0 n 1 fun i st => forwardPair c env fuel wid (size st i) myStage st) := by
  have hpair (size : ℤ) : Sends env wid
      (pairTargets (targets c wid (asUnsigned (myStage + 1))))
      (forwardPair c env fuel wid size myStage) := forwardPair_sends hf size myStage
  unfold Stopping.forLoop
  rw [rounds_one]
  exact Sends.forN fun k _ =>
    ⟨fun st hst => (hpair _).idle st hst, fun st hst => (hpair _).core st hst⟩

/-- The places that `end_iter` sends to. -/
def iterTargets (c : Config) (wid : ℕ) (myStage : ℤ) : List Entry :=
  if wid = asUnsigned myStage then
    let es := targets c wid (asUnsigned (myStage + 1))
    pageTargets c.numGlobals es ++ (pageTargets c.numHeaps es ++ pageTargets c.numStacks es)
  else []

theorem endIter_sends (c : Config) (env : Env) (wid : ℕ) (hf : 0 < fuel) (iter : ℕ)
    (myStage : ℤ) :
    Sends env wid (iterTargets c wid myStage) (endIter c env fuel wid iter myStage) := by
  unfold endIter iterTargets
  by_cases hw : wid = asUnsigned myStage
  · simp only [if_pos hw]
    exact (forwardPairs_sends hf State.shadowGlobals myStage c.numGlobals).bind
      ((forwardPairs_sends hf State.shadowHeaps myStage c.numHeaps).bind
        (forwardPairs_sends hf State.shadowStacks myStage c.numStacks))
  · simp only [if_neg hw]
    exact Sends.ok

end SpecPriv.Trans
