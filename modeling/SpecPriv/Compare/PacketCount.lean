/-
  How many packets the two translations create.

  Where the faithful translation calls `create_packet`, the simplified one
  charges 1200.  The two differ in two places: the faithful `begin_iter` creates
  the packets by which a later iteration is announced to the aux workers, and
  the simplified one puts packets there without creating them; and the faithful
  `end_iter` forwards the pages of the worker whose number is the stage, and
  the simplified one those of every worker.

  `packets_counted`: over any calls made by both, this is all the difference.
-/
import SpecPriv.Lib.Meter
import SpecPriv.Simple.Ledger
import SpecPriv.Simple.Steps
import SpecPriv.Trans.Iterations

namespace SpecPriv.Compare

open Loop Meter

/-- A call with the arguments that the two translations pass. -/
inductive IterCall
  | beginIter (wid iter myStage isMyIter : ℕ)
  | busyWait (wid : ℕ) (myStage : ℤ)
  | endIter (wid iter : ℕ) (myStage isMyIter : ℤ)

namespace IterCall

def simple : IterCall → Simple.ProgramCall
  | beginIter wid iter myStage isMyIter => .beginIter wid iter myStage isMyIter
  | busyWait wid _ => .busyWait wid
  | endIter wid _ myStage isMyIter => .endIter wid myStage isMyIter

def trans : IterCall → Trans.MainCall
  | beginIter wid iter myStage isMyIter => .beginIter wid iter myStage isMyIter
  | busyWait wid myStage => .busyWait wid myStage
  | endIter wid iter myStage _ => .endIter wid iter myStage

end IterCall

/-- The simplified translation with the numbers of the faithful one. -/
def sameSizes (c : Simple.Config) (ct : Trans.Config) : Simple.Config :=
  { c with
    numAuxWorkers := ct.numAuxWorkers
    numHeaps := ct.numHeaps
    numGlobals := ct.numGlobals
    numStacks := ct.numStacks
    aux_lt := ct.aux_lt
    heaps_lt := ct.heaps_lt }

/-- The packets of all pages from a stage on: 1026 times one for each later
    stage and one for the try-commit unit. -/
def pagePackets (ct : Trans.Config) (myStage : ℤ) : ℕ :=
  (ct.numGlobals + ct.numHeaps + ct.numStacks) *
    (1026 * (ct.numStages - Trans.asUnsigned (myStage + 1) + 1))

/-- The packets that announce an iteration. -/
def IterCall.announced (ct : Trans.Config) : IterCall → ℕ
  | beginIter _ iter myStage _ => if iter ≠ 0 ∧ myStage = 0 then ct.numAuxWorkers else 0
  | _ => 0

/-- The packets of pages that the faithful translation forwards. -/
def IterCall.forwarded (ct : Trans.Config) : IterCall → ℕ
  | endIter wid _ myStage _ => if wid = Trans.asUnsigned myStage then pagePackets ct myStage else 0
  | _ => 0

/-- The packets of pages that it does not forward. -/
def IterCall.skipped (ct : Trans.Config) : IterCall → ℕ
  | endIter wid _ myStage _ => if wid = Trans.asUnsigned myStage then 0 else pagePackets ct myStage
  | _ => 0

/-! ## The simplified translation -/

section Simplified

open Simple

variable {c : Simple.Config} {st st' : Simple.State}

/-- The number of packets, each charged 1200. -/
def created (st : Simple.State) : ℕ := (charges st.trace).count 1200

theorem created_charge {n : ℕ} (hn : n ≠ 1200) (st : Simple.State) :
    created (st.charge n) = created st := List.count_cons_of_ne hn

theorem created_chargeAll (cs : List ℕ) (st : Simple.State) :
    created (st.chargeAll cs) = created st + cs.count 1200 := by
  simp [created, charges, Simple.State.chargeAll, List.filterMap_map, Nat.add_comm]

theorem created_replicate {n : ℕ} (hn : n ≠ 1200) (k : ℕ) (st : Simple.State) :
    created (st.chargeAll (List.replicate k n)) = created st := by
  rw [created_chargeAll, List.count_replicate, if_neg (by simpa using hn), Nat.add_zero]

theorem created_store (cell : Tally) (v : ℤ) (st : Simple.State) :
    created (st.store cell v) = created st := rfl

/-- The probes of a search, and the packet. -/
theorem created_search (k : ℕ) (st : Simple.State) :
    created (st.chargeAll (List.replicate k 3 ++ [1200])) = created st + 1 := by
  rw [created_chargeAll, List.count_append, List.count_replicate]
  rfl

theorem queueProduce_created (q : Tally) (st : Simple.State) :
    created (queueProduce q st) = created st := created_charge (by decide) st

theorem queueConsume_created (q : Tally) (st : Simple.State) :
    created (queueConsume q st).2 = created st := by
  rcases queueConsume_cases q st with ⟨-, heq⟩ | ⟨-, type, -, heq⟩
  · rw [heq]
    exact created_charge (by decide) st
  · rw [heq]
    exact created_charge (by decide) st

/-! ### Receiving -/

theorem receivePacket_created (q : Tally) (wid : ℤ) (st : Simple.State) :
    created (Simple.receivePacket q wid st).2 = created st := by
  have hone := queueConsume_created q st
  have htwo := (queueConsume_created q (queueConsume q st).2).trans hone
  unfold Simple.receivePacket
  generalize queueConsume q st = r at hone htwo ⊢
  obtain ⟨type, st₁⟩ := r
  cases type with
  | normal => exact htwo
  | super =>
    dsimp only
    split_ifs
    · exact hone
    · rw [updatePage_eq]
      exact (created_replicate (by decide) _ _).trans htwo
  | done => exact hone
  | alloc =>
    dsimp only
    rw [allocLoop_eq]
    split_ifs
    · exact (created_replicate (by decide) _ _).trans hone
    · exact (created_replicate (by decide) _ _).trans hone

theorem receiveAll_created (q : Tally) (wid : ℤ) : ∀ {fuel : ℕ} {st st' : Simple.State},
    Simple.receiveAll q wid fuel st = some st' → created st' = created st
  | fuel + 1, st, st', h => by
    have hround := receivePacket_created q wid st
    unfold Simple.receiveAll at h
    dsimp only at h
    split_ifs at h
    · cases h
      exact hround
    · exact (receiveAll_created q wid h).trans hround

theorem busyWait_created (wid : ℤ) : ∀ {fuel : ℕ} {st st' : Simple.State},
    Simple.busyWait wid fuel st = some st' → created st' = created st
  | fuel + 1, st, st', h => by
    have hround := queueConsume_created (.reverse wid) st
    unfold Simple.busyWait at h
    by_cases hpos : st.tally (.reverse wid) > 0
    · rw [if_pos hpos] at h
      refine (busyWait_created wid h).trans ?_
      split_ifs
      · exact hround
      · exact hround
    · rw [if_neg hpos] at h
      cases h
      rfl

theorem updatePredictions_created (wid : ℤ) (st : Simple.State) :
    created (updatePredictions c wid st) = created st := by
  have hloads (nl nc : ℤ) (st : Simple.State) :
      created (updateLoopInvariants nl nc st) = created st := by
    refine forLoop_same created ?_ _ _ _ st
    intro i st
    refine forLoop_same created ?_ _ _ _ st
    intro j st
    exact created_charge (by decide) st
  have hlinear (nl nc : ℤ) (st : Simple.State) :
      created (updateLinearPredictedValues nl nc st) = created st := by
    refine forLoop_same created ?_ _ _ _ st
    intro i st
    refine forLoop_same created ?_ _ _ _ st
    intro j st
    exact created_charge (by decide) st
  unfold updatePredictions
  dsimp only
  rw [forLoop_same created (fun i st => queueProduce_created (.queue wid i) st), hlinear, hloads]

theorem beginIter_created {fuel : ℕ} {wid iter myStage isMyIter : ℤ}
    (h : Simple.beginIter c fuel wid iter myStage isMyIter st = some st') :
    created st' = created st := by
  unfold Simple.beginIter at h
  obtain ⟨st₁, hrecv, hrest⟩ := Option.bind_eq_some_iff.1 h
  have hreceived : created st₁ = created st := by
    refine forN?_keeps (fun st' => created st' = created st) ?_ hrecv rfl
    intro k t t' hround ht
    exact (receiveAll_created _ wid hround).trans ht
  have hpredicted : created (if iter ≠ 0 ∧ myStage = 0 then updatePredictions c wid st₁
      else st₁) = created st := by
    split_ifs
    · exact (updatePredictions_created wid st₁).trans hreceived
    · exact hreceived
  have hshadows (st : Simple.State) : created (setShadowHeaps c.numHeaps st) = created st :=
    forLoop_same created (fun _ st => created_charge (by decide) st) _ _ _ st
  obtain rfl := Option.some.inj hrest
  by_cases hmine : isMyIter ≠ 0
  · rw [if_pos hmine, hshadows]
    exact hpredicted
  · rw [if_neg hmine]
    exact hpredicted

/-! ### Forwarding -/

/-- A search of a row of queues, and the produce after it. -/
theorem getAvailable_creates (full : Simple.State → ℕ → Bool) (row : ℕ → Tally) (size : ℕ) :
    Within created 1 1 fun st =>
      let r := getAvailable (full st) (row 0) size st
      queueProduce (row r.1) r.2 := by
  intro st
  have hone : created (getAvailable (full st) (row 0) size st).2 = created st + 1 := by
    rcases getAvailable_cases (full st) (row 0) size st with ⟨-, -, heq⟩ | ⟨-, -, heq⟩
    · rw [heq]
      exact created_search _ st
    · rw [heq, created_store]
      exact created_search _ st
  dsimp only
  rw [queueProduce_created]
  omega

theorem forwardToStage_creates (wid isMyIter : ℤ) (i : ℕ) :
    Within created 1 1 (Simple.forwardToStage c wid isMyIter i) := by
  unfold Simple.forwardToStage
  split_ifs
  · exact getAvailable_creates (fun st idx => st.tally (.commit idx) ≥ queueLimit)
      (fun idx => .commit idx) c.numAuxWorkers
  · have hput := getAvailable_creates
      (fun st idx => st.tally (.ucvf (c.forwardSource wid i) idx) ≥ queueLimit)
      (fun idx => .ucvf (c.forwardSource wid i) idx) c.width
    rw [c.numWorkers_eq]
    intro st
    dsimp only
    rw [created_charge (by decide)]
    exact hput st

theorem forwardPacket_creates (wid shadowSize myStage isMyIter : ℤ) :
    Within created (c.stagesAfter myStage + 1) (c.stagesAfter myStage + 1)
      (Simple.forwardPacket c wid shadowSize myStage isMyIter) := by
  have hloop := Within.forLoop (Simple.asUnsigned (myStage + 1)).toNat c.numStages 1
    (forwardToStage_creates (c := c) wid isMyIter)
  rw [rounds_one, Nat.mul_one] at hloop
  exact hloop.comp (getAvailable_creates (fun _ idx => (c.queuesRow idx : ℤ) ≥ queueLimit)
    (fun idx => .queue wid idx) c.numAuxWorkers)

theorem forwardPair_creates (wid shadowSize myStage isMyIter : ℤ) :
    Within created (1026 * (c.stagesAfter myStage + 1)) (1026 * (c.stagesAfter myStage + 1))
      (Simple.forwardPair c wid shadowSize myStage isMyIter) := by
  have hone (size : ℤ) := forwardPacket_creates (c := c) wid size myStage isMyIter
  have htwo (size : ℤ) := (hone size).comp (hone size)
  have hrounds : rounds 0 Simple.pageSize 8 = 512 := rfl
  have hpair := (htwo shadowSize).comp (Within.forLoop 0 Simple.pageSize 8 fun _ => htwo 8)
  have hcount (n : ℕ) : n + n + 512 * (n + n) = 1026 * n := by ring
  rw [hrounds, hcount] at hpair
  exact hpair

theorem forwardPages_creates (wid myStage isMyIter : ℤ) :
    Within created
      ((c.numGlobals + c.numHeaps + c.numStacks) * (1026 * (c.stagesAfter myStage + 1)))
      ((c.numGlobals + c.numHeaps + c.numStacks) * (1026 * (c.stagesAfter myStage + 1)))
      (Simple.forwardPages c wid myStage isMyIter) := by
  have hpage (size : Simple.State → ℕ → ℤ) (i : ℕ) :
      Within created (1026 * (c.stagesAfter myStage + 1)) (1026 * (c.stagesAfter myStage + 1))
        fun st => Simple.forwardPair c wid (size st i) myStage isMyIter st :=
    fun st => forwardPair_creates wid (size st i) myStage isMyIter st
  have hpages (size : Simple.State → ℕ → ℤ) (n : ℕ) :=
    Within.forLoop 0 n 1 (hpage size)
  have hall := ((hpages Simple.State.shadowGlobals c.numGlobals).comp
    (hpages Simple.State.shadowHeaps c.numHeaps)).comp
    (hpages Simple.State.shadowStacks c.numStacks)
  simp only [rounds_one, Nat.sub_zero, ← Nat.add_mul] at hall
  exact hall

theorem countEntries_created (buf : ℕ → ℕ → ℤ) (numLoads numContexts : ℤ) (st : Simple.State) :
    created (countEntries buf numLoads numContexts st).2 = created st := by
  unfold countEntries
  refine forLoop_keeps (fun r : ℤ × Simple.State => created r.2 = created st) ?_ rfl
  intro i _ _ r hr
  refine forLoop_keeps (fun r : ℤ × Simple.State => created r.2 = created st) ?_ hr
  intro j _ _ r hr
  have hcharge := (created_charge (n := 4) (by decide) r.2).trans hr
  exact (forLoop_same created (fun _ st => created_charge (by decide) st) _ _ _ _).trans hcharge

theorem endIter_created (wid myStage isMyIter : ℤ) (st : Simple.State) :
    created (Simple.endIter c wid myStage isMyIter st) = created st +
      (c.numGlobals + c.numHeaps + c.numStacks) * (1026 * (c.stagesAfter myStage + 1)) := by
  have hpages (st₁ : Simple.State) (h : created st₁ = created st) :
      created (Simple.forwardPages c wid myStage isMyIter st₁) = created st +
        (c.numGlobals + c.numHeaps + c.numStacks) * (1026 * (c.stagesAfter myStage + 1)) := by
    have hcreates := forwardPages_creates (c := c) wid myStage isMyIter st₁
    omega
  refine hpages _ ?_
  split_ifs
  · let r := updateShadowLoopInvariants c st.prediction.numLoopInvariantLoads
      st.prediction.numContexts st
    let st₁ := { r.2 with prediction := { r.2.prediction with numLoopInvariantLoads := r.1 } }
    have hloads : created st₁ = created st := countEntries_created _ _ _ st
    have hcontexts : created (updateShadowLinearPredictedValues c
        st₁.prediction.numLoopInvariantLoads st₁.prediction.numContexts st₁).2 = created st₁ :=
      countEntries_created _ _ _ st₁
    exact hcontexts.trans hloads
  · rfl

end Simplified

/-! ## The faithful translation -/

section Faithful

open SpecPriv.Trans Stopping

variable (ct : Trans.Config) (env : Env) (fuel wid : ℕ)

theorem sends_created (type : ℤ) (e : Entry) :
    Spends Trans.State.created 1 (sendPacket env wid type e) := by
  intro st st' h
  have hcreated := swQueueProduce_same e (env.address st.created)
    (createPacket env wid type st).2 Trans.State.created (fun _ _ => rfl) fun _ _ _ => rfl
  have hsend : Trans.swQueueProduce e (env.address st.created) (createPacket env wid type st).2 =
      .ok st' := h
  rwa [hsend, last_ok] at hcreated

/-! ### Receiving -/

section Receive

variable {e : Entry} {v : Cell64} {done : Bool} {st st' : Trans.State}

theorem swQueueConsume_created (h : Trans.swQueueConsume e st = .ok (v, st')) :
    st'.created = st.created := by
  have hcreated := afterConsume_same e st Trans.State.created (fun _ _ => rfl) fun _ _ _ => rfl
  rwa [afterConsume, h, lastVal_ok] at hcreated

theorem consumePacket_created (h : Trans.consumePacket e st = .ok (v, st')) :
    st'.created = st.created := by
  obtain ⟨⟨p, s⟩, hs, h⟩ := bind_eq_ok h
  dsimp only at h
  split_ifs at h
  cases h
  exact swQueueConsume_created hs

theorem consumeShadow_spends (e : Entry) (p : Trans.Packet) :
    Spends Trans.State.created 0 (Trans.consumeShadow e p) := by
  intro st st' h
  have hone (h : (Trans.swQueueConsume e st).map Prod.snd = .ok st') :
      st'.created = st.created := by
    cases hs : Trans.swQueueConsume e st with
    | error s => exact absurd (hs ▸ h) nofun
    | ok r =>
      rw [hs] at h
      obtain rfl := Except.ok.inj h
      exact swQueueConsume_created hs
  unfold Trans.consumeShadow at h
  split_ifs at h
  · exact hone h
  · exact hone h
  · obtain rfl := Except.ok.inj h
    rfl

theorem receiveRound_created (h : Trans.receivePacket e st = .ok (done, st')) :
    st'.created = st.created := by
  obtain ⟨⟨p, s⟩, hs, h⟩ := bind_eq_ok h
  obtain ⟨s', hs', h⟩ := bind_eq_ok h
  cases h
  exact (consumeShadow_spends e _ s s' hs').trans (consumePacket_created hs)

end Receive

theorem receiveAll_spends (e : Entry) : ∀ fuel,
    Spends Trans.State.created 0 (Trans.receiveAll e fuel)
  | 0 => nofun
  | fuel + 1 => by
    intro st st' h
    obtain ⟨⟨done, s⟩, hs, h⟩ := bind_eq_ok h
    have hround := receiveRound_created hs
    dsimp only at h
    split_ifs at h
    · obtain rfl := Except.ok.inj h
      exact hround
    · exact (receiveAll_spends e fuel s st' h).trans hround

theorem busyWait_spends (wid : ℕ) (myStage : ℤ) : ∀ fuel,
    Spends Trans.State.created 0 (Trans.busyWait wid myStage fuel)
  | 0 => nofun
  | fuel + 1 => by
    intro st st' h
    obtain ⟨empty, -, h⟩ := bind_eq_ok h
    split_ifs at h
    · obtain rfl := Except.ok.inj h
      rfl
    · obtain ⟨⟨p, s⟩, hs, h⟩ := bind_eq_ok h
      dsimp only at h
      split_ifs at h
      exact (busyWait_spends wid myStage fuel s st' h).trans (consumePacket_created hs)

theorem beginIter_spends (iter myStage isMyIter : ℕ) :
    Spends Trans.State.created (if iter ≠ 0 ∧ myStage = 0 then ct.numAuxWorkers else 0)
      (Trans.beginIter ct env fuel wid iter myStage isMyIter) := by
  have hreceive := Spends.forLoop 0 myStage 1 fun _ => receiveAll_spends (.ucvf 0 wid) fuel
  have hannounce := Spends.forLoop 0 ct.numAuxWorkers 1
    fun i => sends_created env wid (-1) (.queue wid i)
  rw [rounds_one, Nat.sub_zero, Nat.mul_one] at hannounce
  rw [← Nat.zero_add (ite _ _ _)]
  refine hreceive.bind ?_
  split_ifs
  · exact hannounce
  · exact Spends.ok fun _ => rfl

/-! ### Forwarding -/

theorem getAvailablePacket_spends :
    Spends Trans.State.created 0 (Trans.getAvailablePacket fuel wid) := by
  intro st st' h
  unfold Trans.getAvailablePacket at h
  cases hsearch : (st.pool wid).getAvailable fuel with
  | none => simp [hsearch] at h
  | some pool =>
    simp only [hsearch] at h
    obtain rfl := Except.ok.inj h
    rfl

theorem getAvailableCommitProcessPacket_spends :
    Spends Trans.State.created 0 (Trans.getAvailableCommitProcessPacket fuel) := by
  intro st st' h
  unfold Trans.getAvailableCommitProcessPacket at h
  cases hsearch : st.commitPool.getAvailable fuel with
  | none => simp [hsearch] at h
  | some pool =>
    simp only [hsearch] at h
    obtain rfl := Except.ok.inj h
    rfl

theorem forwardToStage_spends (myStage : ℤ) (i : ℕ) :
    Spends Trans.State.created 1 (Trans.forwardToStage ct env fuel wid myStage i) := by
  unfold Trans.forwardToStage
  by_cases hw : wid = ct.firstWidOfStage myStage
  · simp only [if_pos hw]
    exact (getAvailableCommitProcessPacket_spends fuel).bind (sends_created env wid typeSuper _)
  · simp only [if_neg hw]
    exact (getAvailablePacket_spends fuel wid).bind (sends_created env wid typeSuper _)

theorem forwardPacket_spends (shadowSize myStage : ℤ) :
    Spends Trans.State.created (ct.numStages - Trans.asUnsigned (myStage + 1) + 1)
      (Trans.forwardPacket ct env fuel wid shadowSize myStage) := by
  have hloop := Spends.forLoop (Trans.asUnsigned (myStage + 1)) ct.numStages 1
    (forwardToStage_spends ct env fuel wid myStage)
  rw [rounds_one, Nat.mul_one] at hloop
  exact hloop.bind (sends_created env wid typeSuper _)

theorem forwardPair_spends (shadowSize myStage : ℤ) :
    Spends Trans.State.created (1026 * (ct.numStages - Trans.asUnsigned (myStage + 1) + 1))
      (Trans.forwardPair ct env fuel wid shadowSize myStage) := by
  have hone (size : ℤ) := forwardPacket_spends ct env fuel wid size myStage
  have hwords := Spends.forLoop 0 Trans.pageSize 8 fun _ => (hone 8).bind (hone 8)
  have hpair := (hone shadowSize).bind ((hone shadowSize).bind hwords)
  have hrounds : rounds 0 Trans.pageSize 8 = 512 := rfl
  have hcount (n : ℕ) : n + (n + 512 * (n + n)) = 1026 * n := by ring
  rw [hrounds, hcount] at hpair
  exact hpair

/-- The pages of a worker other than the one of the stage are not forwarded. -/
theorem endIter_spends (iter : ℕ) (myStage : ℤ) :
    Spends Trans.State.created
      (if wid = Trans.asUnsigned myStage then pagePackets ct myStage else 0)
      (Trans.endIter ct env fuel wid iter myStage) := by
  have hpage (size : Trans.State → ℕ → ℤ) (i : ℕ) :
      Spends Trans.State.created (1026 * (ct.numStages - Trans.asUnsigned (myStage + 1) + 1))
        fun st => Trans.forwardPair ct env fuel wid (size st i) myStage st :=
    fun st => forwardPair_spends ct env fuel wid (size st i) myStage st
  have hpages (size : Trans.State → ℕ → ℤ) (n : ℕ) := Spends.forLoop 0 n 1 (hpage size)
  have hall := (hpages Trans.State.shadowGlobals ct.numGlobals).bind
    ((hpages Trans.State.shadowHeaps ct.numHeaps).bind
      (hpages Trans.State.shadowStacks ct.numStacks))
  simp only [rounds_one, Nat.sub_zero, ← Nat.add_mul, ← Nat.add_assoc] at hall
  unfold Trans.endIter pagePackets
  by_cases hw : wid = Trans.asUnsigned myStage
  · simp only [if_pos hw]
    exact hall
  · simp only [if_neg hw]
    exact Spends.ok fun _ => rfl

end Faithful

/-! ## Runs -/

variable {c : Simple.Config} {ct : Trans.Config} {fuel : ℕ}

theorem simple_exec_created {call : IterCall} {st st' : Simple.State}
    (h : call.simple.exec (sameSizes c ct) fuel st = some st') :
    created st' = created st + (call.forwarded ct + call.skipped ct) := by
  cases call with
  | beginIter wid iter myStage isMyIter => exact beginIter_created h
  | busyWait wid myStage => exact busyWait_created wid h
  | endIter wid iter myStage isMyIter =>
    obtain rfl := Option.some.inj h
    have hboth : (if wid = Trans.asUnsigned myStage then pagePackets ct myStage else 0) +
        (if wid = Trans.asUnsigned myStage then 0 else pagePackets ct myStage) =
        pagePackets ct myStage := by
      split_ifs
      · exact Nat.add_zero _
      · exact Nat.zero_add _
    have hcreated : created (Simple.endIter (sameSizes c ct) wid myStage isMyIter st) =
        created st + pagePackets ct myStage := endIter_created wid myStage isMyIter st
    exact hcreated.trans (congrArg (created st + ·) hboth.symm)

theorem simple_run_created : ∀ {calls : List IterCall} {st st' : Simple.State},
    Simple.runProgram (sameSizes c ct) fuel (calls.map IterCall.simple) st = some st' →
      created st' = created st + (calls.map fun call => call.forwarded ct + call.skipped ct).sum
  | [], st, st', h => Option.some.inj h ▸ rfl
  | call :: calls, st, st', h => by
    obtain ⟨st₁, hcall, hrest⟩ := Option.bind_eq_some_iff.1 h
    rw [List.map_cons, List.sum_cons, simple_run_created hrest, simple_exec_created hcall,
      Nat.add_assoc]

theorem trans_exec_spends (ct : Trans.Config) (env : Trans.Env) (fuel : ℕ) (call : IterCall) :
    Spends Trans.State.created (call.forwarded ct + call.announced ct)
      fun st => call.trans.exec ct env fuel st := by
  cases call with
  | beginIter wid iter myStage isMyIter =>
    have hbegin := beginIter_spends ct env fuel wid iter myStage isMyIter
    rwa [← Nat.zero_add (ite _ _ _)] at hbegin
  | busyWait wid myStage => exact busyWait_spends wid myStage fuel
  | endIter wid iter myStage isMyIter => exact endIter_spends ct env fuel wid iter myStage

/-- **A charge of 1200 is a packet.**  Whatever calls are made by both, the
    simplified translation, from empty tables, charges 1200 once for each packet
    that the faithful one creates, but for those that announce an iteration, and
    once for each that the faithful one would create if it forwarded the pages
    of every worker. -/
theorem packets_counted (c : Simple.Config) (ct : Trans.Config) (env : Trans.Env)
    (hA : 0 < ct.numAuxWorkers) {fuel fuel' : ℕ} (hf : Simple.queueLimit < fuel)
    (st : Simple.State) (calls : List IterCall) {ts ts' : Trans.State}
    (h : Trans.runMain ct env fuel' (calls.map IterCall.trans) ts = .ok ts') :
    ∃ st', Simple.runProgram (sameSizes c ct) fuel (calls.map IterCall.simple) st.fresh =
        some st' ∧
      created st' + (calls.map (IterCall.announced ct)).sum + ts.created =
        ts'.created + (calls.map (IterCall.skipped ct)).sum := by
  obtain ⟨st', hrun⟩ := Simple.runProgram_returns (c := sameSizes c ct) hA hf
    (calls.map IterCall.simple) (Simple.fresh_bounded st) fun _ => rfl
  refine ⟨st', hrun, ?_⟩
  have hsimple := simple_run_created hrun
  have hspends := Spends.foldlM (trans_exec_spends ct env fuel') calls ts ts'
  have hfresh : created st.fresh = 0 := rfl
  unfold Trans.runMain at h
  rw [List.foldlM_map] at h
  have htrans := hspends h
  rw [hfresh, List.sum_map_add] at hsimple
  rw [List.sum_map_add] at htrans
  omega

/-- Two iterations of the worker of the first stage, the second one announced,
    and the end of one of another worker. -/
theorem packets_counted_twoStages : ∃ ts' st',
    Trans.runMain .twoStages .bump 1 [.beginIter 0 0 0 1, .busyWait 0 0, .endIter 0 0 0,
        .beginIter 0 1 0 0, .endIter 1 1 0] (Trans.beginInvocation .twoStages .init) = .ok ts' ∧
      Simple.runProgram (sameSizes .default .twoStages) 17 [.beginIter 0 0 0 1, .busyWait 0,
        .endIter 0 0 1, .beginIter 0 1 0 0, .endIter 1 0 0] (Simple.State.init .default).fresh =
          some st' ∧
      created st' + 10 + (Trans.beginInvocation .twoStages .init).created =
        ts'.created + 6 * (1026 * 2) := by
  have hworks : ∀ call ∈ [.beginIter 0 0 0 1, .busyWait 0 0, .endIter 0 0 0, .beginIter 0 1 0 0,
      .endIter 1 1 0], Trans.MainCall.Works .twoStages call := by
    have hworker : 0 < Trans.Config.twoStages.numWorkers := Trans.Config.workers_pos _
    have hfirst : Trans.MainCall.Works .twoStages (.endIter 0 0 (0 : ℕ)) :=
      Trans.endIter_works hworker (by decide) (by decide) 0
    have hother : Trans.MainCall.Works .twoStages (.endIter 1 1 0) := by
      intro e he
      rw [Trans.iterTargets, if_neg (by decide)] at he
      exact absurd he List.not_mem_nil
    simp only [List.forall_mem_cons]
    exact ⟨⟨rfl, hworker⟩, hworker, hfirst, ⟨rfl, hworker⟩, hother, List.forall_mem_nil _⟩
  obtain ⟨ts', hts', -⟩ :=
    Trans.runMain_returns Nat.one_pos hworks _ (Trans.beginInvocation_quiet .twoStages)
  obtain ⟨st', hst', hcount⟩ := packets_counted .default .twoStages .bump (by decide)
    (show Simple.queueLimit < (17 : ℕ) by decide) (Simple.State.init .default) [.beginIter 0 0 0 1,
      .busyWait 0 0, .endIter 0 0 0 1, .beginIter 0 1 0 0, .endIter 1 1 0 0] hts'
  exact ⟨ts', st', hts', hst', hcount⟩

end SpecPriv.Compare
