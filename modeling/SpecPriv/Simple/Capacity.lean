/-
  The tallies of the worker queues and of the commit queues.

  Producers put a packet into the first queue of a row that has space, or make
  room in the first queue; consumers take one or two packets at a time, and a
  packet for a page is followed by its shadow or not depending on a counter.

  `Bounded st`: the tallies are between `0` and the limit, and so is
  everything that was stored in them.  Every function of the program keeps
  it; the receive loop also ends, since it takes a packet in every round.
-/
import SpecPriv.Simple.Program

namespace SpecPriv.Simple

open Loop

/-- The tallies of `ucvf_queues` and `commit_queues`. -/
def Tally.Capped : Tally → Prop
  | .ucvf _ _ | .commit _ => True
  | .queue _ _ | .reverse _ => False

def InCapacity (v : ℤ) : Prop := 0 ≤ v ∧ v ≤ queueLimit

/-- The capped tallies are in range, and were at all times. -/
structure Bounded (st : State) : Prop where
  tally : ∀ cell : Tally, cell.Capped → InCapacity (st.tally cell)
  stores : ∀ cell v, (cell, v) ∈ stores st.trace → cell.Capped → InCapacity v

variable {st : State} {cell : Tally} {v : ℤ} {c : Config}

namespace Bounded

/-- Only tallies and stores matter. -/
theorem congr {st' : State} (h : Bounded st) (ht : st'.tally = st.tally)
    (hs : SpecPriv.Simple.stores st'.trace = SpecPriv.Simple.stores st.trace) : Bounded st' := by
  constructor
  · rw [ht]
    exact h.tally
  · rw [hs]
    exact h.stores

theorem charge (h : Bounded st) (n : ℕ) : Bounded (st.charge n) := h.congr rfl rfl

theorem chargeAll (h : Bounded st) (cs : List ℕ) : Bounded (st.chargeAll cs) :=
  h.congr rfl (State.chargeAll_stores cs st)

theorem store (h : Bounded st) (hv : cell.Capped → InCapacity v) : Bounded (st.store cell v) := by
  constructor
  · intro cell' hc
    rw [State.store_tally, Function.update_apply]
    split_ifs with heq
    · subst heq
      exact hv hc
    · exact h.tally cell' hc
  · intro cell' v' hmem hc
    rcases List.mem_cons.1 hmem with heq | hmem
    · cases heq
      exact hv hc
    · exact h.stores cell' v' hmem hc

end Bounded

/-! ## Consuming -/

/-- What `queue_consume` does: it answers `DONE` on an empty queue, and takes a
    packet otherwise. -/
theorem queueConsume_cases (q : Tally) (st : State) :
    (st.tally q = 0 ∧ queueConsume q st = (.done, st.charge 6)) ∨
    (st.tally q ≠ 0 ∧ ∃ type, type ≠ .done ∧
      queueConsume q st = (type, (st.charge 6).store q (st.tally q - 1))) := by
  unfold queueConsume
  by_cases h0 : st.tally q = 0
  · exact Or.inl ⟨h0, if_pos h0⟩
  · refine Or.inr ⟨h0, ?_⟩
    by_cases h4 : Int.tmod (st.tally q) 4 = 0
    · exact ⟨.super, nofun, by simp [h0, h4]⟩
    by_cases h2 : Int.tmod (st.tally q) 2 = 0
    · exact ⟨.normal, nofun, by simp [h0, h4, h2]⟩
    · exact ⟨.alloc, nofun, by simp [h0, h4, h2]⟩

/-- A consume leaves a smaller tally, unless there is nothing to consume. -/
theorem queueConsume_tally (q : Tally) (st : State) :
    (queueConsume q st).2.tally = Function.update st.tally q
      (if st.tally q = 0 then 0 else st.tally q - 1) := by
  rcases queueConsume_cases q st with ⟨h, hq⟩ | ⟨h, type, -, hq⟩
  · rw [hq, if_pos h, ← h, Function.update_eq_self]
    rfl
  · rw [hq, if_neg h]
    rfl

theorem Bounded.queueConsume {q : Tally} (h : Bounded st) : Bounded (queueConsume q st).2 := by
  rcases queueConsume_cases q st with ⟨-, hq⟩ | ⟨hne, type, -, hq⟩
  · rw [hq]
    exact h.charge 6
  · rw [hq]
    refine (h.charge 6).store ?_
    intro hc
    obtain ⟨hlo, hhi⟩ := h.tally q hc
    constructor <;> omega

theorem updatePage_eq (n : ℕ) (st : State) :
    updatePage n st = st.chargeAll (List.replicate (rounds 0 n 16) 56) :=
  forLoop_charge 0 n 16 56 st

/-- The allocations of one packet. -/
theorem allocLoop_eq (wid : ℤ) (n : ℕ) (st : State) :
    forLoop 0 n 1 (fun _ st =>
      if st.isVer wid ≠ 0 then updateVerMalloc st else updateVerSeparationMalloc st) st =
      st.chargeAll (List.replicate n (if st.isVer wid ≠ 0 then 200 else 400)) := by
  rw [forLoop, rounds_one, Nat.sub_zero]
  induction n with
  | zero => rfl
  | succ n ih =>
    rw [forN, ih, State.chargeAll_isVer, List.replicate_succ]
    split_ifs <;> rfl

/-- One round of the receive loop: it is the last one iff the queue is empty,
    and takes a packet otherwise. -/
theorem receivePacket_spec (q : Tally) (wid : ℤ) (h : Bounded st) (hq : q.Capped) :
    Bounded (receivePacket q wid st).2 ∧
    (st.tally q = 0 → (receivePacket q wid st).1 = true) ∧
    (st.tally q ≠ 0 → (receivePacket q wid st).1 = false ∧
      (receivePacket q wid st).2.tally q < st.tally q) := by
  have hb := h.queueConsume (q := q)
  have hnonneg := (hb.tally q hq).1
  have hb2 := hb.queueConsume (q := q)
  have ht := congrFun (queueConsume_tally q st) q
  have ht2 := congrFun (queueConsume_tally q (queueConsume q st).2) q
  rw [Function.update_self] at ht ht2
  rcases queueConsume_cases q st with ⟨h0, hc⟩ | ⟨hne, type, hdone, hc⟩
  · rw [receivePacket, hc]
    exact ⟨h.charge 6, fun _ => rfl, fun hne => absurd h0 hne⟩
  · rw [if_neg hne] at ht
    have hlt : (queueConsume q (queueConsume q st).2).2.tally q < st.tally q := by
      rw [ht2]
      split_ifs <;> omega
    have hlt1 : (queueConsume q st).2.tally q < st.tally q := by omega
    have htype : (queueConsume q st).1 = type := by rw [hc]
    have hround : Bounded (receivePacket q wid st).2 ∧ (receivePacket q wid st).1 = false ∧
        (receivePacket q wid st).2.tally q < st.tally q := by
      unfold receivePacket
      simp only [htype]
      cases type with
      | normal => exact ⟨(hb2.charge 1).charge 1, rfl, hlt⟩
      | super =>
        split_ifs
        · have hro : Bounded { (queueConsume q st).2 with
              numRoPages := (queueConsume q st).2.numRoPages - 1 } := hb.congr rfl rfl
          exact ⟨hro.charge 1, rfl, hlt1⟩
        · rw [updatePage_eq]
          exact ⟨hb2.chargeAll _, rfl, hlt⟩
      | done => exact absurd rfl hdone
      | alloc =>
        rw [allocLoop_eq]
        exact ⟨hb.chargeAll _, rfl, hlt1⟩
    exact ⟨hround.1, fun h0 => absurd h0 hne, fun _ => hround.2⟩

/-- The receive loop ends: every round takes a packet. -/
theorem receiveAll_bounded (q : Tally) (wid : ℤ) (hq : q.Capped) : ∀ {fuel : ℕ} {st : State},
    Bounded st → st.tally q < fuel → ∃ st', receiveAll q wid fuel st = some st' ∧ Bounded st'
  | 0, st, h, hf => by
    have := (h.tally q hq).1
    omega
  | fuel + 1, st, h, hf => by
    obtain ⟨hb, hzero, hpos⟩ := receivePacket_spec q wid h hq
    unfold receiveAll
    by_cases h0 : st.tally q = 0
    · exact ⟨_, if_pos (hzero h0), hb⟩
    · obtain ⟨hgo, hlt⟩ := hpos h0
      have hfuel : (receivePacket q wid st).2.tally q < fuel := by
        push_cast at hf
        omega
      rw [if_neg (by rw [hgo]; exact Bool.false_ne_true)]
      exact receiveAll_bounded q wid hq hb hfuel

/-! ## Producing -/

theorem searchAvailable_eq (full : ℕ → Bool) : ∀ (n idx : ℕ) (st : State),
    ∃ k, searchAvailable full n idx st =
      (FirstFit.find full n idx, st.chargeAll (List.replicate k 3)) ∧
      FirstFit.find full n idx = idx + k
  | 0, idx, st => ⟨0, rfl, rfl⟩
  | n + 1, idx, st => by
    unfold searchAvailable FirstFit.find
    split_ifs with hf
    · obtain ⟨k, hk, hidx⟩ := searchAvailable_eq full n (idx + 1) (st.charge 3)
      refine ⟨k + 1, ?_, by omega⟩
      rw [hk, List.replicate_succ']
      simp [State.chargeAll, State.charge]
    · exact ⟨0, rfl, rfl⟩

/-- What the three searches do: they find a queue with space, or make room in
    the first queue when there is none. -/
theorem getAvailable_cases (full : ℕ → Bool) (first : Tally) (size : ℕ) (st : State) :
    let idx := FirstFit.find full size 0
    (idx < size ∧ full idx = false ∧ getAvailable full first size st =
      (idx, st.chargeAll (List.replicate idx 3 ++ [1200]))) ∨
    (idx = size ∧ (∀ k < size, full k = true) ∧ getAvailable full first size st =
      (0, (st.chargeAll (List.replicate size 3 ++ [1200])).store first (st.tally first - 2))) := by
  intro idx
  obtain ⟨k, hk, hidx⟩ := searchAvailable_eq full size 0 (st.charge 1200)
  obtain ⟨-, hle, hfull, hlt⟩ := FirstFit.find_spec full size 0
  rw [Nat.zero_add] at hidx hle hlt
  have hcharge : (st.charge 1200).chargeAll (List.replicate k 3) =
      st.chargeAll (List.replicate k 3 ++ [1200]) := by
    simp [State.chargeAll, State.charge]
  simp only [getAvailable, Int.toNat_natCast, hk, hcharge, Nat.cast_inj]
  rcases hle.lt_or_eq with h | h
  · refine Or.inl ⟨h, Bool.eq_false_iff.2 (hlt h), ?_⟩
    rw [if_neg h.ne, ← hidx]
  · refine Or.inr ⟨h, ?_, ?_⟩
    · intro k hk
      exact hfull k (Nat.zero_le _) (by rwa [h])
    · rw [if_pos h, ← hidx, h]
      rfl

/-- The search of the table `queues` runs over all the rows, whose addresses are
    no small numbers, and makes room. -/
theorem getAvailablePacket_evicts (c : Config) (id : ℤ) (size : ℕ) (st : State) :
    getAvailablePacket c id size st =
      (0, (st.chargeAll (List.replicate size 3 ++ [1200])).store (.queue id 0)
        (st.tally (.queue id 0) - 2)) := by
  have hfull : ∀ idx, decide ((c.queuesRow idx : ℤ) ≥ queueLimit) = true := by
    intro idx
    have hlimit : queueLimit = 16 := rfl
    have haddr := c.queuesAddr_gt
    have hrow : c.queuesAddr ≤ c.queuesRow idx := Nat.le_add_right _ _
    exact decide_eq_true (by omega)
  rcases getAvailable_cases (fun idx => (c.queuesRow idx : ℤ) ≥ queueLimit) (.queue id 0) size st
    with ⟨-, hlt, -⟩ | ⟨-, -, heq⟩
  · exact absurd ((hfull _).symm.trans hlt) (by decide)
  · exact heq

theorem queueProduce_bounded (h : Bounded st) {q : Tally}
    (hq : q.Capped → st.tally q < queueLimit) : Bounded (queueProduce q st) := by
  refine (h.charge 6).store ?_
  intro hc
  have hlo := (h.tally q hc).1
  have hhi := hq hc
  rw [State.charge_tally]
  constructor <;> omega

/-- Searching a row of capped queues and producing into the queue found. -/
theorem getAvailable_bounded (h : Bounded st) (row : ℕ → Tally) (hrow : ∀ idx, (row idx).Capped)
    {size : ℕ} (hsize : 0 < size) :
    let r := getAvailable (fun idx => st.tally (row idx) ≥ queueLimit) (row 0) size st
    Bounded (queueProduce (row r.1) r.2) := by
  have hlimit : (2 : ℤ) ≤ queueLimit := by decide
  rcases getAvailable_cases (fun idx => st.tally (row idx) ≥ queueLimit) (row 0) size st with
    ⟨-, hfull, heq⟩ | ⟨-, hfull, heq⟩
  · rw [heq]
    refine queueProduce_bounded (h.chargeAll _) ?_
    intro _
    rw [State.chargeAll_tally]
    exact not_le.1 (of_decide_eq_false hfull)
  · -- room is made in a queue that is at the limit
    have h0 : queueLimit ≤ st.tally (row 0) := of_decide_eq_true (hfull 0 hsize)
    have hhi := (h.tally (row 0) (hrow 0)).2
    have hroom : InCapacity (st.tally (row 0) - 2) := by
      constructor <;> omega
    rw [heq]
    refine queueProduce_bounded ((h.chargeAll _).store fun _ => hroom) ?_
    intro _
    rw [State.store_tally, Function.update_self]
    omega

/-- A search of the table `queues`, and the produce after it, change none of the
    capped tallies. -/
theorem getAvailablePacket_bounded (h : Bounded st) (wid size : ℤ) :
    Bounded (queueProduce (.queue wid (getAvailablePacket c wid size st).1)
      (getAvailablePacket c wid size st).2) := by
  have hnot (wid col : ℤ) : ¬ (Tally.queue wid col).Capped := id
  refine queueProduce_bounded ?_ fun hc => absurd hc (hnot _ _)
  unfold getAvailablePacket getAvailable
  obtain ⟨k, hk, -⟩ := searchAvailable_eq (fun idx => (c.queuesRow idx : ℤ) ≥ queueLimit)
    size.toNat 0 (st.charge 1200)
  simp only [hk]
  split_ifs
  · exact ((h.charge 1200).chargeAll _).store fun hc => absurd hc (hnot _ _)
  · exact (h.charge 1200).chargeAll _

/-! ## The calls -/

/-- A loop keeps what its body keeps. -/
theorem Bounded.forLoop (h : Bounded st) {start stop step : ℕ} {body : ℕ → State → State}
    (hbody : ∀ i st, Bounded st → Bounded (body i st)) :
    Bounded (Loop.forLoop start stop step body st) :=
  forN_induct (fun _ st => Bounded st) h fun _ _ st hst => hbody _ st hst

theorem Config.numWorkers_eq (c : Config) : c.numWorkers = ((12 - c.numAuxWorkers : ℕ) : ℤ) := by
  have := c.aux_lt
  unfold numWorkers
  omega

theorem forwardToStage_bounded (hA : 0 < c.numAuxWorkers) (h : Bounded st) (wid isMyIter : ℤ)
    (i : ℕ) : Bounded (forwardToStage c wid isMyIter i st) := by
  unfold forwardToStage
  split_ifs
  · exact getAvailable_bounded h (fun idx => .commit idx) (fun _ => trivial) hA
  · have hW : 0 < 12 - c.numAuxWorkers := Nat.sub_pos_of_lt c.aux_lt
    have := getAvailable_bounded h (fun idx => .ucvf (c.forwardSource wid i) idx)
      (fun _ => trivial) hW
    rw [← c.numWorkers_eq] at this
    exact this.charge 300

theorem forwardPacket_bounded (hA : 0 < c.numAuxWorkers) (h : Bounded st)
    (wid shadowSize myStage isMyIter : ℤ) :
    Bounded (forwardPacket c wid shadowSize myStage isMyIter st) := by
  unfold forwardPacket
  refine getAvailablePacket_bounded ?_ _ _
  refine h.forLoop ?_
  intro i st hst
  exact forwardToStage_bounded hA hst wid isMyIter i

theorem updateLoopInvariants_bounded (h : Bounded st) (nl nc : ℤ) :
    Bounded (updateLoopInvariants nl nc st) := by
  refine h.forLoop ?_
  intro i st h
  refine h.forLoop ?_
  intro j st h
  exact (h.charge 4).congr rfl rfl

theorem updateLinearPredictedValues_bounded (h : Bounded st) (nl nc : ℤ) :
    Bounded (updateLinearPredictedValues nl nc st) := by
  refine h.forLoop ?_
  intro i st h
  refine h.forLoop ?_
  intro j st h
  exact (h.charge 4).congr rfl rfl

theorem updatePredictions_bounded (h : Bounded st) (wid : ℤ) :
    Bounded (updatePredictions c wid st) := by
  have hvalues := updateLoopInvariants_bounded h st.prediction.numLoopInvariantLoads
    st.prediction.numContexts
  unfold updatePredictions
  refine (updateLinearPredictedValues_bounded hvalues _ _).forLoop ?_
  intro i st h
  refine queueProduce_bounded h ?_
  intro hc
  cases hc

theorem setShadowHeaps_bounded (h : Bounded st) (n : ℕ) : Bounded (setShadowHeaps n st) :=
  h.forLoop fun _ _ h => h.charge 1

theorem beginIter_bounded (h : Bounded st) {fuel : ℕ} (hf : queueLimit < fuel)
    (wid iter myStage isMyIter : ℤ) :
    ∃ st', beginIter c fuel wid iter myStage isMyIter st = some st' ∧ Bounded st' := by
  have hround : ∀ k < rounds 0 myStage.toNat 1, ∀ st, Bounded st → ∃ st',
      receiveAll (.ucvf (c.modNumWorkers (wid + (0 + 1 * k : ℕ))) wid) wid fuel st = some st' ∧
        Bounded st' := by
    intro k _ st hst
    have hhi := (hst.tally (.ucvf (c.modNumWorkers (wid + (0 + 1 * k : ℕ))) wid) trivial).2
    exact receiveAll_bounded (.ucvf _ wid) wid trivial hst (hhi.trans_lt hf)
  obtain ⟨st₁, hrecv, h₁⟩ := forN?_induct (fun _ st => Bounded st) h hround
  have h₂ : Bounded (if iter ≠ 0 ∧ myStage = 0 then updatePredictions c wid st₁ else st₁) := by
    split_ifs
    · exact updatePredictions_bounded h₁ wid
    · exact h₁
  rw [beginIter, forLoop?, hrecv]
  refine ⟨_, rfl, ?_⟩
  generalize (if iter ≠ 0 ∧ myStage = 0 then updatePredictions c wid st₁ else st₁) = st₂ at h₂ ⊢
  split_ifs with hmine
  · exact setShadowHeaps_bounded h₂ _
  · exact h₂

/-! ## Sequences of calls -/

/-- A call of `forward_packet` or of `begin_iter`, by any worker. -/
inductive QueueCall
  | forwardPacket (wid shadowSize myStage isMyIter : ℤ)
  | beginIter (wid iter myStage isMyIter : ℤ)

def QueueCall.exec (c : Config) (fuel : ℕ) (st : State) : QueueCall → Option State
  | forwardPacket wid shadowSize myStage isMyIter =>
    some (SpecPriv.Simple.forwardPacket c wid shadowSize myStage isMyIter st)
  | beginIter wid iter myStage isMyIter =>
    SpecPriv.Simple.beginIter c fuel wid iter myStage isMyIter st

def runCalls (c : Config) (fuel : ℕ) : List QueueCall → State → Option State
  | [], st => some st
  | call :: calls, st => (call.exec c fuel st).bind (runCalls c fuel calls)

/-- All tallies at zero, and nothing done. -/
def State.fresh (st : State) : State := { st with tally := fun _ => 0, trace := [] }

theorem fresh_bounded (st : State) : Bounded st.fresh := by
  constructor
  · intro cell _
    exact ⟨le_rfl, show 0 ≤ queueLimit by decide⟩
  · intro cell v hmem
    cases hmem

theorem exec_bounded (hA : 0 < c.numAuxWorkers) {fuel : ℕ} (hf : queueLimit < fuel)
    (h : Bounded st) (call : QueueCall) :
    ∃ st', call.exec c fuel st = some st' ∧ Bounded st' := by
  cases call with
  | forwardPacket wid shadowSize myStage isMyIter =>
    exact ⟨_, rfl, forwardPacket_bounded hA h wid shadowSize myStage isMyIter⟩
  | beginIter wid iter myStage isMyIter => exact beginIter_bounded h hf wid iter myStage isMyIter

theorem runCalls_bounded (hA : 0 < c.numAuxWorkers) {fuel : ℕ} (hf : queueLimit < fuel) :
    ∀ (calls : List QueueCall) {st : State}, Bounded st →
      ∃ st', runCalls c fuel calls st = some st' ∧ Bounded st'
  | [], st, h => ⟨st, rfl, h⟩
  | call :: calls, st, h => by
    obtain ⟨st₁, hcall, h₁⟩ := exec_bounded hA hf h call
    obtain ⟨st₂, hrest, h₂⟩ := runCalls_bounded hA hf calls h₁
    refine ⟨st₂, ?_, h₂⟩
    rw [runCalls, hcall, Option.bind_some, hrest]

/-- **The tallies stay within capacity.**  From empty tables, whatever calls
    are made and in whatever order, the calls return, and the tallies of the
    worker queues and of the commit queues are between `0` and the limit, and
    were at every store. -/
theorem tallies_within_capacity (hA : 0 < c.numAuxWorkers) {fuel : ℕ} (hf : queueLimit < fuel)
    (st : State) (calls : List QueueCall) :
    ∃ st', runCalls c fuel calls st.fresh = some st' ∧
      (∀ row col, 0 ≤ st'.tally (.ucvf row col) ∧ st'.tally (.ucvf row col) ≤ 16) ∧
      (∀ idx, 0 ≤ st'.tally (.commit idx) ∧ st'.tally (.commit idx) ≤ 16) ∧
      ∀ cell v, (cell, v) ∈ stores st'.trace → cell.Capped → 0 ≤ v ∧ v ≤ 16 := by
  obtain ⟨st', hrun, h⟩ := runCalls_bounded hA hf calls (fresh_bounded st)
  refine ⟨st', hrun, ?_, ?_, h.stores⟩
  · intro row col
    exact h.tally (.ucvf row col) trivial
  · intro idx
    exact h.tally (.commit idx) trivial

theorem tallies_within_capacity_default :
    ∃ st', runCalls .default 17 [.forwardPacket 0 0 0 1, .beginIter 9 0 3 1]
        (State.init .default).fresh = some st' ∧
      (∀ row col, 0 ≤ st'.tally (.ucvf row col) ∧ st'.tally (.ucvf row col) ≤ 16) ∧
      (∀ idx, 0 ≤ st'.tally (.commit idx) ∧ st'.tally (.commit idx) ≤ 16) ∧
      ∀ cell v, (cell, v) ∈ stores st'.trace → cell.Capped → 0 ≤ v ∧ v ≤ 16 :=
  tallies_within_capacity (by decide) (by decide) _ _

end SpecPriv.Simple
