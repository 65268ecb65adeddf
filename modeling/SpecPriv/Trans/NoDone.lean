/-
  No packet ends a receive loop.

  The receive loop of `begin_iter` runs until it takes a packet of type `DONE`,
  and no call ever sends one.  `NoDone`: every value in a queue is null or a
  packet of another type; all calls keep it.  From such a state a receive loop
  goes round the ring at most once, since every round clears a value, and the
  first null that it takes stops it.

  `beginIter_stops`: so `begin_iter` does not get through any stage but the
  first, whatever calls came before.  `main` never makes such a call
  (`Trans.Iterations`).
-/
import Mathlib.Data.Finset.Card
import Mathlib.Data.Finset.Range
import SpecPriv.Trans.Iterations

namespace SpecPriv.Trans

open Stopping

variable {c : Config} {env : Env} {st : State} {e : Entry} {v : Cell64} {fuel : ℕ}

/-! ## The invariant -/

/-- Null, or a packet that does not end a receive loop. -/
def NotDone (packet : Cell64 → Packet) (v : Cell64) : Prop :=
  v = swQueueNull ∨ (packet v).type ≠ typeDone

/-- No value in a queue ends a receive loop. -/
structure NoDone (st : State) : Prop where
  slots : ∀ p, AtSlots (queueSize / 2) (st.queue p)
  vals : ∀ p i, NotDone st.packet (valOf (cell (st.queue p).data) i)

theorem NotDone.createPacket (henv : env.StoresType) {wid : ℕ} {type : ℤ} (ht : type ≠ typeDone)
    (hv : NotDone st.packet v) : NotDone (createPacket env wid type st).2.packet v := by
  unfold Trans.createPacket NotDone
  rcases hv with hv | hv
  · exact .inl hv
  · right
    dsimp only
    rw [Function.update_apply]
    split_ifs
    · rwa [henv]
    · exact hv

theorem createPacket_notDone (henv : env.StoresType) {wid : ℕ} {type : ℤ} (ht : type ≠ typeDone) :
    NotDone (createPacket env wid type st).2.packet (createPacket env wid type st).1 := by
  right
  unfold Trans.createPacket
  dsimp only
  rwa [Function.update_self, henv]

theorem swQueueProduce_noDone (hst : NoDone st) (hv : NotDone st.packet v) :
    NoDone (last (swQueueProduce e v st)) := by
  have hpacket := swQueueProduce_same e v st State.packet (fun _ _ => rfl) fun _ _ _ => rfl
  have hqueue (p : ℕ) : AtSlots (queueSize / 2) ((last (swQueueProduce e v st)).queue p) ∧
      ∀ i, NotDone st.packet (valOf (cell ((last (swQueueProduce e v st)).queue p).data) i) := by
    rw [swQueueProduce_queue]
    split_ifs
    · obtain ⟨q, hq, hslots, h, hvals⟩ := produce_atSlots queueSize_eq (hst.slots p) v
      rw [hq, Option.getD_some, hvals]
      refine ⟨hslots, ?_⟩
      intro i
      rw [Function.update_apply]
      split_ifs
      · exact hv
      · exact hst.vals p i
    · exact ⟨hst.slots p, hst.vals p⟩
  refine ⟨fun p => (hqueue p).1, ?_⟩
  rw [hpacket]
  exact fun p => (hqueue p).2

theorem afterConsume_noDone (hst : NoDone st) : NoDone (afterConsume e st) := by
  have hpacket := afterConsume_same e st State.packet (fun _ _ => rfl) fun _ _ _ => rfl
  have hqueue (p : ℕ) : AtSlots (queueSize / 2) ((afterConsume e st).queue p) ∧
      ∀ i, NotDone st.packet (valOf (cell ((afterConsume e st).queue p).data) i) := by
    rw [afterConsume_queue]
    split_ifs
    · obtain ⟨t, -, q, hq, hslots, hvals⟩ := consume_atSlots queueSize_eq (hst.slots p)
      rw [hq, Option.map_some, Option.getD_some, hvals]
      refine ⟨hslots, ?_⟩
      intro i
      rw [Function.update_apply]
      split_ifs
      · exact .inl rfl
      · exact hst.vals p i
    · exact ⟨hst.slots p, hst.vals p⟩
  refine ⟨fun p => (hqueue p).1, ?_⟩
  rw [hpacket]
  exact fun p => (hqueue p).2

theorem clearPtr_type (p v : Cell64) : ((clearPtr p st).packet v).type = (st.packet v).type := by
  unfold clearPtr
  dsimp only
  rw [Function.update_apply]
  split_ifs with hv
  · rw [hv]
  · rfl

/-- **All calls keep the invariant.** -/
theorem stable_noDone (henv : env.StoresType) : Stable env (fun _ => True) NoDone where
  send wid type e st ht _ hst := by
    refine swQueueProduce_noDone ⟨hst.slots, ?_⟩ (createPacket_notDone henv ht)
    exact fun p i => (hst.vals p i).createPacket henv ht
  consume _ _ _ hst := afterConsume_noDone hst
  clearPtr p st hst := by
    refine ⟨hst.slots, ?_⟩
    intro p' i
    have hval := hst.vals p' i
    unfold NotDone at hval ⊢
    rwa [clearPtr_type]
  pool _ _ _ _ hst := ⟨hst.slots, hst.vals⟩
  commitPool _ _ _ hst := ⟨hst.slots, hst.vals⟩

theorem beginInvocation_noDone (c : Config) : NoDone (beginInvocation c .init) := by
  refine ⟨(beginInvocation_idle c).queue, ?_⟩
  intro p i
  left
  rw [(beginInvocation_clean c).queue p]
  by_cases hi : 2 * i + 1 < queueSize <;> simp [valOf, cell, emptyQueue, swQueueNull, hi]

theorem Reached.noDone (henv : env.StoresType) (hst : Reached c env st) : NoDone st :=
  hst.keeps (stable_noDone henv) (beginInvocation_noDone c)

/-! ## The receive loop -/

/-- The slots with a value that is not null. -/
def occupied (f : ℕ → Cell64) : Finset ℕ :=
  (Finset.range (queueSize / 2)).filter fun i => f i ≠ swQueueNull

theorem occupied_update (f : ℕ → Cell64) (t : ℕ) :
    occupied (Function.update f t swQueueNull) = (occupied f).erase t := by
  ext i
  by_cases hi : i = t
  · simp [occupied, hi]
  · simp [occupied, hi]

/-- The number of packets that a queue can still give. -/
def waiting (e : Entry) (st : State) : ℕ :=
  (occupied (valOf (cell (st.queue (e.ptr st.heap)).data))).card

theorem waiting_le (e : Entry) (st : State) : waiting e st ≤ queueSize / 2 := by
  refine (Finset.card_filter_le _ _).trans ?_
  rw [Finset.card_range]

/-- What a consume gives does not end a receive loop, and is no longer there. -/
theorem swQueueConsume_noDone (hst : NoDone st) (he : e.ptr st.heap ≠ 0) :
    ∃ v s, swQueueConsume e st = .ok (v, s) ∧ NotDone s.packet v ∧
      waiting e s ≤ waiting e st ∧ (v ≠ swQueueNull → waiting e s < waiting e st) := by
  obtain ⟨t, ht, q, hq, -, hvals⟩ := consume_atSlots queueSize_eq (hst.slots (e.ptr st.heap))
  rcases swQueueConsume_cases e st with ⟨h0 | hnone, -⟩ | ⟨v, q', -, hq', heq⟩
  · exact absurd h0 he
  · exact absurd (hq.symm.trans hnone) nofun
  · obtain ⟨rfl, rfl⟩ := Prod.mk.inj (Option.some.inj (hq.symm.trans hq'))
    have hwaiting : waiting e ((consumed e st).setQueue (e.ptr st.heap) q) =
        ((occupied (valOf (cell (st.queue (e.ptr st.heap)).data))).erase t).card := by
      rw [← occupied_update, ← hvals]
      show (occupied (valOf (cell (Function.update st.queue _ q (e.ptr st.heap)).data))).card = _
      rw [Function.update_self]
    refine ⟨_, _, heq, hst.vals _ t, ?_, ?_⟩
    · rw [hwaiting]
      exact Finset.card_erase_le
    · intro hv
      rw [hwaiting]
      exact Finset.card_erase_lt_of_mem (Finset.mem_filter.2 ⟨Finset.mem_range.2 ht, hv⟩)

/-- The last that was done is a consume from a place. -/
def StoppedAt (e : Entry) (st : State) : Prop := ∃ isEmpty log, st.log = .consume e isEmpty :: log

theorem lastVal_of_ok {α : Type} {x : Except State (α × State)} {v : α} {s : State}
    (h : x = .ok (v, s)) : lastVal x = s := by
  rw [h, lastVal_ok]

/-- The second packet of a pair. -/
theorem consumeShadow_noDone (hst : NoDone st) (he : e.ptr st.heap ≠ 0) (p : Packet) :
    ∃ s, consumeShadow e p st = .ok s ∧ waiting e s ≤ waiting e st := by
  obtain ⟨v, s, hs, -, hle, -⟩ := swQueueConsume_noDone hst he
  unfold consumeShadow
  split_ifs
  · exact ⟨s, by rw [hs]; rfl, hle⟩
  · exact ⟨s, by rw [hs]; rfl, hle⟩
  · exact ⟨st, rfl, le_rfl⟩

/-- A round stops, or takes something that is not the end. -/
theorem receivePacket_cases (henv : env.StoresType) (hst : NoDone st) :
    (∃ s, receivePacket e st = .error s ∧ StoppedAt e s) ∨
      ∃ s, receivePacket e st = .ok (false, s) ∧ NoDone s ∧ waiting e s < waiting e st := by
  have hlog := afterConsume_log e st
  by_cases he : e.ptr st.heap = 0
  · left
    rcases swQueueConsume_cases e st with ⟨-, heq⟩ | ⟨-, -, h0, -⟩
    · refine ⟨consumed e st, ?_, nothingAt e st, st.log, rfl⟩
      rw [receivePacket, consumePacket, heq, bind_error, bind_error]
    · exact absurd he h0
  · obtain ⟨v, s, hs, hv, -, hlt⟩ := swQueueConsume_noDone hst he
    have hafter : afterConsume e st = s := lastVal_of_ok hs
    by_cases hnull : v = swQueueNull
    · have hconsume : consumePacket e st = .error s := by
        rw [consumePacket, hs, bind_ok]
        exact if_pos hnull
      refine .inl ⟨s, ?_, nothingAt e st, st.log, hafter ▸ hlog⟩
      rw [receivePacket, hconsume, bind_error]
    · have hconsume : consumePacket e st = .ok (v, s) := by
        rw [consumePacket, hs, bind_ok]
        exact if_neg hnull
      have hno : NoDone s := hafter ▸ afterConsume_noDone hst
      have hheap : s.heap = st.heap := hafter ▸ afterConsume_heap e st
      have hptr : e.ptr s.heap ≠ 0 := by rwa [hheap]
      obtain ⟨s', hs', hle⟩ := consumeShadow_noDone hno hptr (s.packet v)
      have htype : (s.packet v).type ≠ typeDone := hv.resolve_left hnull
      have hstable := stable_noDone henv
      have hkept : NoDone (last (consumeShadow e (s.packet v) s)) :=
        hstable.consumeShadow trivial _ s hno
      rw [hs', last_ok] at hkept
      refine .inr ⟨clearPtr v s', ?_, hstable.clearPtr v s' hkept, hle.trans_lt (hlt hnull)⟩
      rw [receivePacket, hconsume, bind_ok]
      dsimp only
      rw [hs', bind_ok, decide_eq_false htype]

/-- **A receive loop stops**: each of its rounds leaves fewer packets. -/
theorem receiveAll_stops (henv : env.StoresType) (hst : NoDone st) :
    ∃ s, StoppedAt e s ∧ ∀ fuel > waiting e st, receiveAll e fuel st = .error s := by
  induction hn : waiting e st using Nat.strong_induction_on generalizing st with
  | _ n ih =>
    subst hn
    rcases receivePacket_cases henv (e := e) hst with ⟨s, hs, hstopped⟩ | ⟨s, hs, hno, hlt⟩
    · refine ⟨s, hstopped, ?_⟩
      intro fuel hfuel
      obtain ⟨fuel, rfl⟩ := Nat.exists_eq_succ_of_ne_zero hfuel.ne_bot
      rw [receiveAll, hs, bind_error]
    · obtain ⟨s', hstopped, hs'⟩ := ih _ hlt hno rfl
      refine ⟨s', hstopped, ?_⟩
      intro fuel hfuel
      obtain ⟨fuel, rfl⟩ := Nat.exists_eq_succ_of_ne_zero hfuel.ne_bot
      rw [receiveAll, hs, bind_ok]
      exact hs' fuel (hlt.trans_le (Nat.le_of_lt_succ hfuel))

/-- **No later stage is received.**  If `create_packet` stores the type, then from
    every state reached by calls of whatever order `begin_iter` stops in every
    stage but the first, having consumed from the queue of worker 0. -/
theorem beginIter_stops (henv : env.StoresType) (hst : Reached c env st) {stage : ℕ}
    (hstage : 0 < stage) (wid iter isMyIter : ℕ) :
    ∃ st', StoppedAt (.ucvf 0 wid) st' ∧ ∀ fuel > queueSize / 2,
      beginIter c env fuel wid iter stage isMyIter st = .error st' := by
  obtain ⟨st', hstopped, hst'⟩ := receiveAll_stops henv (e := .ucvf 0 wid) (hst.noDone henv)
  obtain ⟨n, rfl⟩ := Nat.exists_eq_succ_of_ne_zero hstage.ne'
  refine ⟨st', hstopped, ?_⟩
  intro fuel hfuel
  have hloop : receiveAll (.ucvf 0 wid) fuel st = .error st' :=
    hst' fuel ((waiting_le _ _).trans_lt hfuel)
  rw [beginIter, Stopping.forLoop, Loop.rounds_one, Nat.sub_zero, forN_error hloop n, bind_error]

/-- The second stage, after worker 0 has sent its packets to worker 1. -/
theorem beginIter_stops_twoStages : ∃ st,
    runMain .twoStages .bump 1 [.beginIter 0 0 0 1, .busyWait 0 0, .endIter 0 0 0]
      (beginInvocation .twoStages .init) = .ok st ∧
    ∃ st', StoppedAt (.ucvf 0 1) st' ∧ ∀ fuel > queueSize / 2,
      beginIter .twoStages .bump fuel 1 0 1 1 st = .error st' := by
  obtain ⟨st, hst⟩ := runMain_twoStages
  exact ⟨st, hst, beginIter_stops Env.bump_storesType ⟨1, _, hst⟩ Nat.one_pos 1 0 1⟩

end SpecPriv.Trans
