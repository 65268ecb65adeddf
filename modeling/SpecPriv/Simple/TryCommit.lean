/-
  The tallies of the table `queues`, from the workers to the try-commit process.

  Two functions store in it: `begin_iter` puts a packet into every queue of a
  worker, unguarded, and `forward_packet` searches the queues of the worker for
  one with space.  The search looks at addresses instead of tallies, so it
  always makes room in the first queue and leaves it with one packet less.

  * `State.tryCommit` is what of a state concerns the table, and
    `TryCommit.step` what a call does to it: `run_tryCommit`.
  * `run_tally`: the tallies are the calls that put packets into the queues,
    minus the searches.
  * `talliesPackets_iff`: when the tallies are numbers of packets.
-/
import SpecPriv.Simple.Capacity

namespace SpecPriv.Simple

open Loop

/-- The tallies of the table, and the stores to it, latest first. -/
@[ext] structure TryCommit where
  tally : ℤ → ℤ → ℤ
  stores : List ((ℤ × ℤ) × ℤ)

def State.tryCommit (st : State) : TryCommit where
  tally row col := st.tally (.queue row col)
  stores := (stores st.trace).filterMap fun
    | (.queue row col, v) => some ((row, col), v)
    | _ => none

namespace TryCommit

def store (row col v : ℤ) (t : TryCommit) : TryCommit where
  tally := Function.update t.tally row (Function.update (t.tally row) col v)
  stores := ((row, col), v) :: t.stores

def produce (row col : ℤ) (t : TryCommit) : TryCommit := t.store row col (t.tally row col + 1)

/-- Make room in the first queue of a row, and produce there. -/
def search (row : ℤ) (t : TryCommit) : TryCommit :=
  (t.store row 0 (t.tally row 0 - 2)).produce row 0

/-- What a call does. -/
def step (numAuxWorkers : ℕ) (t : TryCommit) : QueueCall → TryCommit
  | .forwardPacket wid _ _ _ => t.search wid
  | .beginIter wid iter myStage _ =>
    if iter ≠ 0 ∧ myStage = 0 then
      forLoop 0 numAuxWorkers 1 (fun k t => t.produce wid k) t
    else t

end TryCommit

variable {c : Config} {st st' : State}

section Store
variable (n : ℕ) (cs : List ℕ) (row col v : ℤ) (st : State)

@[simp] theorem charge_tryCommit : (st.charge n).tryCommit = st.tryCommit := rfl

@[simp] theorem chargeAll_tryCommit : (st.chargeAll cs).tryCommit = st.tryCommit := by
  simp [State.tryCommit]

@[simp] theorem store_queue_tryCommit :
    (st.store (.queue row col) v).tryCommit = st.tryCommit.store row col v := by
  refine TryCommit.ext ?_ rfl
  funext row' col'
  simp only [State.tryCommit, TryCommit.store, State.store_tally, Function.update_apply,
    Tally.queue.injEq]
  by_cases hr : row' = row
  · subst hr
    simp [Function.update_apply]
  · simp [hr]

/-- Stores to the other tables do not matter. -/
theorem store_other_tryCommit {cell : Tally} (h : ∀ row col, cell ≠ .queue row col) :
    (st.store cell v).tryCommit = st.tryCommit := by
  refine TryCommit.ext ?_ ?_
  · funext row col
    exact Function.update_of_ne (h row col).symm _ _
  · cases cell with
    | queue row col => exact absurd rfl (h row col)
    | ucvf | commit | reverse => rfl

theorem queueProduce_queue_tryCommit :
    (queueProduce (.queue row col) st).tryCommit = st.tryCommit.produce row col := by
  unfold queueProduce
  rw [store_queue_tryCommit, charge_tryCommit]
  rfl

end Store

/-! ## The calls -/

theorem queueConsume_ucvf_tryCommit (row col : ℤ) (st : State) :
    (queueConsume (.ucvf row col) st).2.tryCommit = st.tryCommit := by
  rcases queueConsume_cases (.ucvf row col) st with ⟨-, hq⟩ | ⟨-, type, -, hq⟩
  · rw [hq, charge_tryCommit]
  · rw [hq, store_other_tryCommit _ _ (by simp), charge_tryCommit]

theorem receivePacket_tryCommit (row col wid : ℤ) (st : State) :
    (receivePacket (.ucvf row col) wid st).2.tryCommit = st.tryCommit := by
  have hone := queueConsume_ucvf_tryCommit row col st
  have htwo := queueConsume_ucvf_tryCommit row col (queueConsume (.ucvf row col) st).2
  unfold receivePacket
  generalize queueConsume (.ucvf row col) st = r at hone htwo ⊢
  obtain ⟨type, st₁⟩ := r
  cases type with
  | normal => exact htwo.trans hone
  | super =>
    dsimp only
    split_ifs
    · exact hone
    · rw [updatePage_eq, chargeAll_tryCommit]
      exact htwo.trans hone
  | done => exact hone
  | alloc =>
    dsimp only
    rw [allocLoop_eq, chargeAll_tryCommit]
    exact hone

theorem receiveAll_tryCommit (row col wid : ℤ) : ∀ {fuel : ℕ} {st st' : State},
    receiveAll (.ucvf row col) wid fuel st = some st' → st'.tryCommit = st.tryCommit
  | fuel + 1, st, st', h => by
    have hone := receivePacket_tryCommit row col wid st
    rw [receiveAll] at h
    split_ifs at h with hdone
    · obtain rfl := Option.some.inj h
      exact hone
    · exact (receiveAll_tryCommit row col wid h).trans hone

/-- A search of another table, and the produce after it. -/
theorem getAvailable_other_tryCommit (full : ℕ → Bool) (row : ℕ → Tally)
    (hrow : ∀ idx row' col, row idx ≠ .queue row' col) (size : ℕ) (st : State) :
    let r := getAvailable full (row 0) size st
    (queueProduce (row r.1) r.2).tryCommit = st.tryCommit := by
  intro r
  have hr : r.2.tryCommit = st.tryCommit := by
    rcases getAvailable_cases full (row 0) size st with ⟨-, -, heq⟩ | ⟨-, -, heq⟩
    · rw [show r = _ from heq, chargeAll_tryCommit]
    · rw [show r = _ from heq, store_other_tryCommit _ _ (hrow 0), chargeAll_tryCommit]
  rw [queueProduce, store_other_tryCommit _ _ (hrow _), charge_tryCommit, hr]

theorem forwardToStage_tryCommit (wid isMyIter : ℤ) (i : ℕ) (st : State) :
    (forwardToStage c wid isMyIter i st).tryCommit = st.tryCommit := by
  unfold forwardToStage
  split_ifs
  · exact getAvailable_other_tryCommit _ (fun idx => .commit idx) (by simp) _ st
  · have := getAvailable_other_tryCommit (fun idx => st.tally (.ucvf (c.forwardSource wid i) idx) ≥
      queueLimit) (fun idx => .ucvf (c.forwardSource wid i) idx) (by simp)
      (12 - c.numAuxWorkers) st
    rw [← c.numWorkers_eq] at this
    rw [charge_tryCommit]
    exact this

/-- The state in which `forward_packet` calls the search. -/
def beforeSearch (c : Config) (wid myStage isMyIter : ℤ) (st : State) : State :=
  forLoop (asUnsigned (myStage + 1)).toNat c.numStages 1 (forwardToStage c wid isMyIter) st

theorem beforeSearch_tryCommit (wid myStage isMyIter : ℤ) (st : State) :
    (beforeSearch c wid myStage isMyIter st).tryCommit = st.tryCommit :=
  forN_induct (fun _ (st' : State) => st'.tryCommit = st.tryCommit) rfl
    fun _ _ st' h => (forwardToStage_tryCommit wid isMyIter _ st').trans h

theorem forwardPacket_tryCommit (wid shadowSize myStage isMyIter : ℤ) (st : State) :
    (forwardPacket c wid shadowSize myStage isMyIter st).tryCommit = st.tryCommit.search wid := by
  have hloop := beforeSearch_tryCommit (c := c) wid myStage isMyIter st
  have hsearch := getAvailablePacket_evicts c wid c.numAuxWorkers
    (beforeSearch c wid myStage isMyIter st)
  have htally : (beforeSearch c wid myStage isMyIter st).tally (.queue wid 0) =
      st.tryCommit.tally wid 0 := congrArg (fun t => t.tally wid 0) hloop
  unfold forwardPacket
  rw [← beforeSearch]
  simp only [hsearch, Nat.cast_zero, queueProduce_queue_tryCommit, store_queue_tryCommit,
    chargeAll_tryCommit, hloop, htally]
  rfl

theorem updateLoopInvariants_tryCommit (nl nc : ℤ) (st : State) :
    (updateLoopInvariants nl nc st).tryCommit = st.tryCommit := by
  refine forLoop_same State.tryCommit ?_ _ _ _ st
  intro i st
  refine forLoop_same State.tryCommit ?_ _ _ _ st
  intro j st
  rfl

theorem updateLinearPredictedValues_tryCommit (nl nc : ℤ) (st : State) :
    (updateLinearPredictedValues nl nc st).tryCommit = st.tryCommit := by
  refine forLoop_same State.tryCommit ?_ _ _ _ st
  intro i st
  refine forLoop_same State.tryCommit ?_ _ _ _ st
  intro j st
  rfl

theorem updatePredictions_tryCommit (wid : ℤ) (st : State) :
    (updatePredictions c wid st).tryCommit =
      forLoop 0 c.numAuxWorkers 1 (fun k t => t.produce wid k) st.tryCommit := by
  unfold updatePredictions
  rw [forLoop_map State.tryCommit fun k st => queueProduce_queue_tryCommit wid k st,
    updateLinearPredictedValues_tryCommit, updateLoopInvariants_tryCommit]

theorem beginIter_tryCommit {fuel : ℕ} {wid iter myStage isMyIter : ℤ}
    (h : beginIter c fuel wid iter myStage isMyIter st = some st') :
    st'.tryCommit = st.tryCommit.step c.numAuxWorkers (.beginIter wid iter myStage isMyIter) := by
  rw [beginIter] at h
  obtain ⟨st₁, hrecv, hst'⟩ := Option.bind_eq_some_iff.1 h
  have h₁ : st₁.tryCommit = st.tryCommit := by
    refine forN?_keeps (fun st' => st'.tryCommit = st.tryCommit) ?_ hrecv rfl
    intro k s s' hs' hs
    exact (receiveAll_tryCommit _ _ _ hs').trans hs
  have hshadow (st : State) : (setShadowHeaps c.numHeaps st).tryCommit = st.tryCommit := by
    refine forLoop_same State.tryCommit ?_ _ _ _ st
    intro i st
    rfl
  obtain rfl := Option.some.inj hst'
  rw [TryCommit.step, apply_ite State.tryCommit, hshadow, ite_self, apply_ite State.tryCommit,
    updatePredictions_tryCommit, h₁]

theorem exec_tryCommit {fuel : ℕ} {call : QueueCall} (h : call.exec c fuel st = some st') :
    st'.tryCommit = st.tryCommit.step c.numAuxWorkers call := by
  cases call with
  | forwardPacket wid shadowSize myStage isMyIter =>
    obtain rfl := Option.some.inj h
    exact forwardPacket_tryCommit wid shadowSize myStage isMyIter st
  | beginIter wid iter myStage isMyIter => exact beginIter_tryCommit h

/-- What a run does to the table. -/
theorem run_tryCommit {fuel : ℕ} : ∀ {calls : List QueueCall} {st : State},
    runCalls c fuel calls st = some st' →
      st'.tryCommit = calls.foldl (TryCommit.step c.numAuxWorkers) st.tryCommit
  | [], st, h => by rw [← Option.some.inj h, List.foldl_nil]
  | call :: calls, st, h => by
    obtain ⟨st₁, hcall, hrest⟩ := Option.bind_eq_some_iff.1 h
    rw [run_tryCommit hrest, exec_tryCommit hcall, List.foldl_cons]

/-! ## Numbers of packets -/

/-- The call puts a packet into every queue of the worker. -/
def QueueCall.sends (wid : ℤ) : QueueCall → Bool
  | forwardPacket _ _ _ _ => false
  | beginIter wid' iter myStage _ => wid' = wid ∧ iter ≠ 0 ∧ myStage = 0

/-- The call searches the queues of the worker. -/
def QueueCall.searches (wid : ℤ) : QueueCall → Bool
  | forwardPacket wid' _ _ _ => wid' = wid
  | beginIter _ _ _ _ => false

namespace TryCommit

variable {t : TryCommit} {numAuxWorkers : ℕ}

theorem store_tally (row col v : ℤ) (t : TryCommit) (row' col' : ℤ) :
    (t.store row col v).tally row' col' =
      if row' = row ∧ col' = col then v else t.tally row' col' := by
  simp only [store, Function.update_apply]
  by_cases hr : row' = row
  · subst hr
    simp [Function.update_apply]
  · simp [hr]

theorem search_tally (row : ℤ) (t : TryCommit) (row' col' : ℤ) :
    (t.search row).tally row' col' =
      t.tally row' col' - if row' = row ∧ col' = 0 then 1 else 0 := by
  have hroom : (t.store row 0 (t.tally row 0 - 2)).tally row 0 = t.tally row 0 - 2 := by
    rw [store_tally, if_pos ⟨rfl, rfl⟩]
  rw [search, produce, store_tally, hroom, store_tally]
  by_cases h : row' = row ∧ col' = 0
  · obtain ⟨rfl, rfl⟩ := h
    rw [if_pos ⟨rfl, rfl⟩, if_pos ⟨rfl, rfl⟩]
    omega
  · rw [if_neg h, if_neg h, if_neg h, sub_zero]

/-- A packet for every queue of a row. -/
theorem sends_tally (row : ℤ) (t : TryCommit) (n : ℕ) (row' col' : ℤ) :
    (forLoop 0 n 1 (fun k t => t.produce row k) t).tally row' col' =
      t.tally row' col' + if row' = row ∧ 0 ≤ col' ∧ col' < n then 1 else 0 := by
  rw [forLoop, rounds_one, Nat.sub_zero]
  refine forN_induct (fun m (t' : TryCommit) => t'.tally row' col' =
    t.tally row' col' + if row' = row ∧ 0 ≤ col' ∧ col' < m then 1 else 0) ?_ ?_
  · rw [if_neg (by omega), add_zero]
  · intro m _ t' ht'
    rw [produce, store_tally, Nat.zero_add, Nat.one_mul]
    split_ifs at ht' ⊢ with h1 h2 h2 <;> first | omega | skip
    all_goals obtain ⟨rfl, rfl⟩ := h1
    all_goals omega

theorem step_tally (call : QueueCall) (row : ℤ) {k : ℕ} (hk : k < numAuxWorkers) :
    (t.step numAuxWorkers call).tally row k =
      t.tally row k + (if call.sends row then 1 else 0) -
        if k = 0 then (if call.searches row then 1 else 0) else 0 := by
  cases call with
  | forwardPacket wid shadowSize myStage isMyIter =>
    simp only [step, search_tally, QueueCall.sends, QueueCall.searches, Nat.cast_eq_zero,
      decide_eq_true_eq, Bool.false_eq_true, if_false, add_zero]
    by_cases h0 : k = 0 <;> simp [h0, eq_comm]
  | beginIter wid iter myStage isMyIter =>
    simp only [step, QueueCall.sends, QueueCall.searches, decide_eq_true_eq, Bool.false_eq_true,
      if_false, ite_self, sub_zero]
    by_cases hsend : iter ≠ 0 ∧ myStage = 0
    · rw [if_pos hsend, sends_tally]
      by_cases hrow : row = wid
      · rw [if_pos ⟨hrow, by omega, by omega⟩, if_pos ⟨hrow.symm, hsend⟩]
      · rw [if_neg fun h => hrow h.1, if_neg fun h => hrow h.1.symm]
    · rw [if_neg hsend, if_neg fun h => hsend h.2, add_zero]

/-- The tallies after some calls. -/
theorem run_tally (row : ℤ) {k : ℕ} (hk : k < numAuxWorkers) :
    ∀ (calls : List QueueCall) (t : TryCommit),
      (calls.foldl (step numAuxWorkers) t).tally row k =
        t.tally row k + calls.countP (QueueCall.sends row) -
          if k = 0 then (calls.countP (QueueCall.searches row) : ℤ) else 0
  | [], t => by simp
  | call :: calls, t => by
    rw [List.foldl_cons, run_tally row hk calls, step_tally call row hk, List.countP_cons,
      List.countP_cons]
    push_cast
    by_cases h0 : k = 0 <;> simp only [h0, if_true, if_false] <;> omega

/-- No tally is negative, and none was. -/
structure Nonneg (t : TryCommit) : Prop where
  tally : ∀ row col, 0 ≤ t.tally row col
  stores : ∀ cell v, (cell, v) ∈ t.stores → 0 ≤ v

theorem Nonneg.store (h : t.Nonneg) (row col : ℤ) {v : ℤ} (hv : 0 ≤ v) :
    (t.store row col v).Nonneg := by
  constructor
  · intro row' col'
    rw [store_tally]
    split_ifs
    · exact hv
    · exact h.tally row' col'
  · intro cell v' hmem
    rcases List.mem_cons.1 hmem with heq | hmem
    · cases heq
      exact hv
    · exact h.stores cell v' hmem

theorem Nonneg.produce (h : t.Nonneg) (row col : ℤ) : (t.produce row col).Nonneg :=
  h.store row col (by have := h.tally row col; omega)

/-- A call keeps the tallies from being negative, if a search makes room in a
    queue with two packets. -/
theorem Nonneg.step (h : t.Nonneg) {call : QueueCall}
    (hroom : ∀ wid, call.searches wid → 2 ≤ t.tally wid 0) :
    (t.step numAuxWorkers call).Nonneg := by
  cases call with
  | forwardPacket wid shadowSize myStage isMyIter =>
    have h2 : 2 ≤ t.tally wid 0 := hroom wid (by simp [QueueCall.searches])
    exact (h.store wid 0 (by omega)).produce wid 0
  | beginIter wid iter myStage isMyIter =>
    rw [TryCommit.step]
    split_ifs
    · exact forN_induct (fun _ t => Nonneg t) h fun _ _ _ ht => ht.produce wid _
    · exact h

theorem Nonneg.run : ∀ {calls : List QueueCall} {t : TryCommit}, t.Nonneg →
    (∀ pre call post wid, calls = pre ++ call :: post → call.searches wid →
      2 ≤ (pre.foldl (TryCommit.step numAuxWorkers) t).tally wid 0) →
    (calls.foldl (TryCommit.step numAuxWorkers) t).Nonneg
  | [], t, h, _ => h
  | call :: calls, t, h, hroom => by
    have hcall : (t.step numAuxWorkers call).Nonneg :=
      h.step fun wid hs => hroom [] call calls wid rfl hs
    refine hcall.run ?_
    intro pre call' post wid heq hs
    exact hroom (call :: pre) call' post wid (by rw [heq, List.cons_append]) hs

end TryCommit

/-! ## The search -/

/-- `get_available_packet` finds the first queue with space, and changes no
    tally; it makes room in the first queue if there is none. -/
structure FindsFirst (c : Config) (id : ℤ) (st : State) : Prop where
  space : ∀ k < c.numAuxWorkers, st.tally (.queue id k) < queueLimit →
    (∀ j < k, queueLimit ≤ st.tally (.queue id j)) →
      (getAvailablePacket c id c.numAuxWorkers st).1 = k ∧
      (getAvailablePacket c id c.numAuxWorkers st).2.tally = st.tally
  full : (∀ k < c.numAuxWorkers, queueLimit ≤ st.tally (.queue id k)) →
    (getAvailablePacket c id c.numAuxWorkers st).1 = 0 ∧
    (getAvailablePacket c id c.numAuxWorkers st).2.tally =
      Function.update st.tally (.queue id 0) (st.tally (.queue id 0) - 2)

/-- The search is right when there is nothing to find. -/
theorem findsFirst_iff {id : ℤ} : FindsFirst c id st ↔
    ∀ k < c.numAuxWorkers, queueLimit ≤ st.tally (.queue id k) := by
  have hsearch := getAvailablePacket_evicts c id c.numAuxWorkers st
  constructor
  · intro h
    by_contra hspace
    push Not at hspace
    -- the first queue with space is found without a change of any tally
    have hex : ∃ k, k < c.numAuxWorkers ∧ st.tally (.queue id k) < queueLimit := hspace
    obtain ⟨hk, hlt⟩ := Nat.find_spec hex
    have hfirst : ∀ j < Nat.find hex, queueLimit ≤ st.tally (.queue id j) := by
      intro j hj
      by_contra hlt'
      exact Nat.find_min hex hj ⟨hj.trans hk, not_le.1 hlt'⟩
    have hsame := congrFun (h.space _ hk hlt hfirst).2 (.queue id 0)
    rw [hsearch, State.store_tally, Function.update_self] at hsame
    omega
  · intro h
    refine ⟨?_, ?_⟩
    · intro k hk hlt _
      exact absurd (h k hk) (not_le.2 hlt)
    · intro _
      rw [hsearch]
      exact ⟨rfl, by simp⟩

/-- A run of the calls: no tally of the table is ever negative, and the search
    of every `forward_packet` is right. -/
def TalliesPackets (c : Config) (fuel : ℕ) (st : State) (calls : List QueueCall) : Prop :=
  ∃ st', runCalls c fuel calls st.fresh = some st' ∧
    (∀ row col v, (.queue row col, v) ∈ stores st'.trace → 0 ≤ v) ∧
    ∀ pre wid shadowSize myStage isMyIter post,
      calls = pre ++ .forwardPacket wid shadowSize myStage isMyIter :: post →
        ∃ st₁, runCalls c fuel pre st.fresh = some st₁ ∧
          FindsFirst c wid (beforeSearch c wid myStage isMyIter st₁)

/-- The search of a call, after the calls before it. -/
theorem findsFirst_after {fuel : ℕ} (hA : 0 < c.numAuxWorkers) {pre : List QueueCall}
    {st₁ : State} (hrun : runCalls c fuel pre st.fresh = some st₁) (wid myStage isMyIter : ℤ) :
    FindsFirst c wid (beforeSearch c wid myStage isMyIter st₁) ↔
      16 + pre.countP (QueueCall.searches wid) ≤ pre.countP (QueueCall.sends wid) := by
  have hlimit : queueLimit = 16 := rfl
  have htally : ∀ k < c.numAuxWorkers,
      (beforeSearch c wid myStage isMyIter st₁).tally (.queue wid k) =
        pre.countP (QueueCall.sends wid) -
          if k = 0 then (pre.countP (QueueCall.searches wid) : ℤ) else 0 := by
    intro k hk
    have hobs : (beforeSearch c wid myStage isMyIter st₁).tryCommit =
        pre.foldl (TryCommit.step c.numAuxWorkers) st.fresh.tryCommit :=
      (beforeSearch_tryCommit wid myStage isMyIter st₁).trans (run_tryCommit hrun)
    have hzero : st.fresh.tryCommit.tally wid k = 0 := rfl
    have := TryCommit.run_tally wid hk pre st.fresh.tryCommit
    rw [← hobs, hzero, zero_add] at this
    exact this
  rw [findsFirst_iff]
  constructor
  · intro h
    have h0 := h 0 hA
    rw [htally 0 hA, if_pos rfl] at h0
    omega
  · intro h k hk
    rw [htally k hk]
    split_ifs <;> omega

/-- **When the tallies are numbers of packets**: every search comes after at
    least sixteen more packets for the queues of the worker than searches. -/
theorem talliesPackets_iff (hA : 0 < c.numAuxWorkers) {fuel : ℕ} (hf : queueLimit < fuel)
    (st : State) (calls : List QueueCall) : TalliesPackets c fuel st calls ↔
      ∀ pre wid shadowSize myStage isMyIter post,
        calls = pre ++ .forwardPacket wid shadowSize myStage isMyIter :: post →
          16 + pre.countP (QueueCall.searches wid) ≤ pre.countP (QueueCall.sends wid) := by
  constructor
  · rintro ⟨st', hrun, -, hsearch⟩ pre wid shadowSize myStage isMyIter post heq
    obtain ⟨st₁, hpre, hfinds⟩ := hsearch pre wid shadowSize myStage isMyIter post heq
    exact (findsFirst_after hA hpre wid myStage isMyIter).1 hfinds
  · intro h
    obtain ⟨st', hrun, -⟩ := runCalls_bounded hA hf calls (fresh_bounded st)
    have hfresh : st.fresh.tryCommit.Nonneg := ⟨fun _ _ => le_rfl, nofun⟩
    have hroom : ∀ pre call post wid, calls = pre ++ call :: post → call.searches wid →
        2 ≤ (pre.foldl (TryCommit.step c.numAuxWorkers) st.fresh.tryCommit).tally wid 0 := by
      intro pre call post wid heq hs
      cases call with
      | beginIter wid' iter myStage isMyIter => cases hs
      | forwardPacket wid' shadowSize myStage isMyIter =>
        obtain rfl : wid' = wid := of_decide_eq_true hs
        have hcount := h pre wid' shadowSize myStage isMyIter post heq
        have hzero : st.fresh.tryCommit.tally wid' (0 : ℕ) = 0 := rfl
        have htally := TryCommit.run_tally wid' hA pre st.fresh.tryCommit
        rw [hzero, if_pos rfl] at htally
        rw [Nat.cast_zero] at htally
        omega
    have hnonneg : st'.tryCommit.Nonneg := by
      rw [run_tryCommit hrun]
      exact hfresh.run hroom
    refine ⟨st', hrun, ?_, ?_⟩
    · intro row col v hmem
      refine hnonneg.stores (row, col) v ?_
      exact List.mem_filterMap.2 ⟨(.queue row col, v), hmem, rfl⟩
    · intro pre wid shadowSize myStage isMyIter post heq
      obtain ⟨st₁, hpre, -⟩ := runCalls_bounded hA hf pre (fresh_bounded st)
      exact ⟨st₁, hpre, (findsFirst_after hA hpre wid myStage isMyIter).2
        (h pre wid shadowSize myStage isMyIter post heq)⟩

theorem talliesPackets_iff_default :
    TalliesPackets .default 17 (.init .default) [.beginIter 3 1 0 1, .forwardPacket 3 0 0 1] ↔
      ∀ pre wid shadowSize myStage isMyIter post,
        [.beginIter 3 1 0 1, .forwardPacket 3 0 0 1] =
            pre ++ .forwardPacket wid shadowSize myStage isMyIter :: post →
          16 + pre.countP (QueueCall.searches wid) ≤ pre.countP (QueueCall.sends wid) :=
  talliesPackets_iff (by decide) (by decide) _ _

/-- The first packet that is forwarded leaves a tally of minus one. -/
theorem not_talliesPackets :
    ¬ TalliesPackets .default 17 (.init .default) [.forwardPacket 0 0x1000 0 0] := by
  rintro ⟨st', -, -, hsearch⟩
  obtain ⟨st₁, hpre, hfinds⟩ := hsearch [] 0 0x1000 0 0 [] rfl
  have := (findsFirst_after (by decide) hpre 0 0 0).1 hfinds
  exact absurd this (by decide)

end SpecPriv.Simple
