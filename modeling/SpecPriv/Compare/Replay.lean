/-
  A tally is the number of packets in a queue of the faithful translation.

  The simplified translation keeps of a queue how many packets it has.
  `queueOps` reads the stores to a tally as operations on a queue of the
  faithful translation: one more is a produce, one less a consume, and two less
  are two consumes, by which room is made.

  `tallies_count`: whatever calls of the simplified translation are made, these
  operations never overrun the ring nor consume from it when it is empty, and
  the queue ends up with as many packets as the tally says; and
  `queue_consume` answers `DONE` where `__sw_queue_empty` holds.
-/
import SpecPriv.Simple.Steps
import SpecPriv.Trans.SwQueue

namespace SpecPriv.Compare

open Simple Relation

/-- The operations by which a queue gets from `u` packets to `v`. -/
def moveOps (packet : Cell64) (u v : ℤ) : List QueueOp :=
  if v = u + 1 then [.produce packet]
  else if v = u - 1 then [.consume]
  else if v = u - 2 then [.consume, .consume]
  else []

/-- The operations on a queue, and its tally after them, by the stores, latest
    first. -/
def queueOps (packet : Cell64) (cell : Tally) : List (Tally × ℤ) → List QueueOp × ℤ
  | [] => ([], 0)
  | (cell', v) :: stores =>
    let r := queueOps packet cell stores
    if cell' = cell then (r.1 ++ moveOps packet r.2 v, v) else r

variable {cap : ℕ} {packet : Cell64} {cell : Tally} {st st' : State} {xs : List Cell64}

/-! ## Sequences of operations -/

theorem specRun_append : ∀ (ops ops' : List QueueOp) (xs : List Cell64),
    (specRun xs (ops ++ ops')).2 = (specRun (specRun xs ops).2 ops').2
  | [], _, _ => rfl
  | op :: ops, ops', xs => specRun_append ops ops' (op.spec xs).2

theorem legalRun_append : ∀ {ops ops' : List QueueOp} {xs : List Cell64}, LegalRun cap xs ops →
    LegalRun cap (specRun xs ops).2 ops' → LegalRun cap xs (ops ++ ops')
  | [], _, _, _, h => h
  | _ :: _, _, _, ⟨hop, hops⟩, h => ⟨hop, legalRun_append hops h⟩

/-- A move of the length by one up, or by one or two down, in the ring. -/
theorem moveOps_spec {v : ℤ} (hv : 0 ≤ v ∧ v ≤ cap)
    (hmove : v = xs.length + 1 ∨ v = xs.length - 1 ∨ v = xs.length - 2) :
    LegalRun cap xs (moveOps packet xs.length v) ∧
      ((specRun xs (moveOps packet xs.length v)).2.length : ℤ) = v := by
  unfold moveOps
  rcases hmove with rfl | rfl | rfl
  · rw [if_pos rfl]
    have hlt : xs.length < cap := by omega
    simp [LegalRun, QueueOp.Legal, specRun, QueueOp.spec, hlt]
  · have hne : ¬ (xs.length - 1 : ℤ) = xs.length + 1 := by omega
    rw [if_neg hne, if_pos rfl]
    have hnil : xs ≠ [] := by
      rintro rfl
      simp at hv
    have hpos := List.length_pos_iff.2 hnil
    simp only [LegalRun, QueueOp.Legal, specRun, QueueOp.spec, List.length_tail]
    exact ⟨⟨hnil, trivial⟩, by omega⟩
  · have hne : ¬ (xs.length - 2 : ℤ) = xs.length + 1 := by omega
    have hne' : ¬ (xs.length - 2 : ℤ) = xs.length - 1 := by omega
    rw [if_neg hne, if_neg hne', if_pos rfl]
    rcases xs with _ | ⟨x, _ | ⟨y, ys⟩⟩
    · simp at hv
    · simp at hv
    · simp only [LegalRun, QueueOp.Legal, specRun, QueueOp.spec, List.tail_cons, List.length_cons]
      exact ⟨⟨by simp, by simp, trivial⟩, by omega⟩

/-! ## The stores of a run -/

/-- The operations so far are legal and lead to as many packets as the tally
    says. -/
structure Tracks (cap : ℕ) (packet : Cell64) (cell : Tally) (st : State) : Prop where
  tally : (queueOps packet cell (stores st.trace)).2 = st.tally cell
  legal : LegalRun cap [] (queueOps packet cell (stores st.trace)).1
  length : ((specRun [] (queueOps packet cell (stores st.trace)).1).2.length : ℤ) = st.tally cell

namespace Tracks

theorem charge (h : Tracks cap packet cell st) (n : ℕ) : Tracks cap packet cell (st.charge n) :=
  ⟨h.tally, h.legal, h.length⟩

theorem congr (h : Tracks cap packet cell st) (ht : st'.tally = st.tally)
    (htr : st'.trace = st.trace) : Tracks cap packet cell st' := by
  refine ⟨?_, ?_, ?_⟩
  · rw [ht, htr]
    exact h.tally
  · rw [htr]
    exact h.legal
  · rw [ht, htr]
    exact h.length

/-- A store to the tally is a move. -/
theorem store (h : Tracks cap packet cell st) {v : ℤ} (hv : 0 ≤ v ∧ v ≤ cap)
    (hmove : v = st.tally cell + 1 ∨ v = st.tally cell - 1 ∨ v = st.tally cell - 2) :
    Tracks cap packet cell (st.store cell v) := by
  rw [← h.length] at hmove
  obtain ⟨hlegal, hlength⟩ := @moveOps_spec cap packet _ v hv hmove
  have hops : queueOps packet cell (stores (st.store cell v).trace) =
      ((queueOps packet cell (stores st.trace)).1 ++ moveOps packet
        (specRun [] (queueOps packet cell (stores st.trace)).1).2.length v, v) := by
    rw [State.store_stores, queueOps, if_pos rfl, h.length, ← h.tally]
  have htally : (st.store cell v).tally cell = v := by
    rw [State.store_tally, Function.update_self]
  refine ⟨?_, ?_, ?_⟩
  · rw [hops, htally]
  · rw [hops]
    exact legalRun_append h.legal hlegal
  · rw [hops, htally, specRun_append]
    exact hlength

theorem store_other (h : Tracks cap packet cell st) {cell' : Tally} (hne : cell' ≠ cell) (v : ℤ) :
    Tracks cap packet cell (st.store cell' v) := by
  have hops : queueOps packet cell (stores (st.store cell' v).trace) =
      queueOps packet cell (stores st.trace) := by
    rw [State.store_stores, queueOps, if_neg hne]
  have htally : (st.store cell' v).tally cell = st.tally cell := by
    rw [State.store_tally, Function.update_of_ne hne.symm]
  refine ⟨?_, ?_, ?_⟩
  · rw [hops, htally]
    exact h.tally
  · rw [hops]
    exact h.legal
  · rw [hops, htally]
    exact h.length

theorem fresh (st : State) : Tracks cap packet cell st.fresh := ⟨rfl, trivial, rfl⟩

end Tracks

theorem step_tracks (hcap : queueLimit ≤ cap) (hcell : cell.Capped) (hb : Bounded st)
    (h : Step st st') (ht : Tracks cap packet cell st) : Tracks cap packet cell st' := by
  have hlimit : queueLimit = 16 := rfl
  obtain ⟨hlo, hhi⟩ := hb.tally cell hcell
  cases h with
  | charge n => exact ht.charge n
  | take q _ _ hne =>
    by_cases hq : q = cell
    · subst hq
      exact ht.store (by omega) (Or.inr (Or.inl rfl))
    · exact ht.store_other hq _
  | put q _ _ hlt =>
    by_cases hq : q = cell
    · subst hq
      have hspace := hlt hcell
      exact ht.store (by omega) (Or.inl rfl)
    · exact ht.store_other hq _
  | evict q _ _ hfull =>
    by_cases hq : q = cell
    · subst hq
      have hle := hfull hcell
      have hroom := ht.store (v := st.tally q - 2) (by omega) (Or.inr (Or.inr rfl))
      refine (hroom.charge 6).store ?_ (Or.inl rfl)
      rw [State.charge_tally, State.store_tally, Function.update_self]
      omega
    · exact ((ht.store_other hq _).charge 6).store_other hq _
  | rest _ _ ht' htr => exact ht.congr ht' htr

theorem steps_tracks (hcap : queueLimit ≤ cap) (hcell : cell.Capped) (hb : Bounded st)
    (h : Steps st st') (ht : Tracks cap packet cell st) : Tracks cap packet cell st' := by
  induction h with
  | refl => exact ht
  | tail hsteps hstep ih => exact step_tracks hcap hcell (Steps.bounded hsteps hb) hstep ih

/-- `queue_consume` answers `DONE` on an empty queue alone. -/
theorem queueConsume_done_iff : (queueConsume cell st).1 = .done ↔ st.tally cell = 0 := by
  rcases queueConsume_cases cell st with ⟨h0, heq⟩ | ⟨hne, type, htype, heq⟩
  · rw [heq]
    exact iff_of_true rfl h0
  · rw [heq]
    exact iff_of_false htype hne

/-- **A tally is the number of packets in a queue.**  In every run of calls
    from empty tables, the changes of the tally of a worker queue or a commit
    queue are produces and consumes that a ring of `size / 2 ≥ 16` slots stands;
    at the end the ring holds as many packets as the tally says, and the
    simplified consume says that there are none iff the ring is empty. -/
theorem tallies_count {c : Config} (hA : 0 < c.numAuxWorkers) {fuel fuel' : ℕ}
    (hf : queueLimit < fuel) (st : State) (calls : List ProgramCall) {size : ℕ} (he : Even size)
    (hs : 32 ≤ size) (hf' : size / 2 < fuel') (packet : Cell64) (q₀ : SwQueue size) :
    ∃ st', runProgram c fuel calls st.fresh = some st' ∧ ∀ cell : Tally, cell.Capped →
      let ops := (queueOps packet cell (stores st'.trace)).1
      LegalRun (size / 2) [] ops ∧
      ∃ replies q xs, runQueue fuel' ops (swQueueReset q₀) = some (replies, q) ∧
        Represents (size / 2) q xs ∧ (xs.length : ℤ) = st'.tally cell ∧
        ((queueConsume cell st').1 = .done ↔ swQueueEmpty q = some 1) := by
  have hsize : size = 2 * (size / 2) := by
    obtain ⟨k, hk⟩ := he
    omega
  have hlimit : queueLimit = 16 := rfl
  obtain ⟨st', hrun⟩ := runProgram_returns hA hf calls (fresh_bounded st) fun _ => rfl
  refine ⟨st', hrun, ?_⟩
  intro cell hcell ops
  have ht : Tracks (size / 2) packet cell st' :=
    steps_tracks (by omega) hcell (fresh_bounded st) (runProgram_steps hA hrun) (Tracks.fresh st)
  refine ⟨ht.legal, ?_⟩
  obtain ⟨q, hq, hrep⟩ := run_refines hsize (by omega) hf'
    (reset_represents hsize (by omega) q₀) ht.legal
  have hlength : ((specRun [] ops).2.length : ℤ) = st'.tally cell := ht.length
  refine ⟨_, q, _, hq, hrep, hlength, ?_⟩
  rw [queueConsume_done_iff, empty_eq hsize hrep, ← hlength]
  cases (specRun [] ops).2 with
  | nil => simp
  | cons x xs =>
    refine iff_of_false ?_ (by simp)
    rw [List.length_cons]
    omega

theorem tallies_count_default :
    ∃ st', runProgram .default 17 [.endIter 0 0 1, .beginIter 0 1 3 1, .endIter 0 1 0]
        (State.init .default).fresh = some st' ∧ ∀ cell : Tally, cell.Capped →
      let ops := (queueOps 7#64 cell (stores st'.trace)).1
      LegalRun (16384 / 2) [] ops ∧
      ∃ replies q xs, runQueue 8193 ops (swQueueReset ⟨0, 0, 0, Vector.replicate 16384 1#64⟩) =
          some (replies, q) ∧
        Represents (16384 / 2) q xs ∧ (xs.length : ℤ) = st'.tally cell ∧
        ((queueConsume cell st').1 = .done ↔ swQueueEmpty q = some 1) :=
  tallies_count (by decide) (by decide) _ _ (by decide) (by decide) (by decide) _ _

end SpecPriv.Compare
