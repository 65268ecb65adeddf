/-
  The rows of `ucvf_queues` that `main` uses.

  The remainder `(wid+i) % NUM_WORKERS` is, with the macro as text,
  `(wid+i) % 12 - NUM_AUX_WORKERS`, so the source that it computes is a row
  below the table whenever `(wid+i) % 12` is less than `NUM_AUX_WORKERS`.

  A call uses a row when what it does depends on it: in two states that differ
  only there it behaves differently.  `beginIter_usesRow_iff` and
  `endIter_usesRow_iff` say which rows those are, and `inBounds_iff` when they are
  rows of the table in all calls of `main`.
-/
import SpecPriv.Simple.Cells
import SpecPriv.Simple.Drain

namespace SpecPriv.Simple

open Loop

/-- The row is one of a worker. -/
def Config.IsWorker (c : Config) (row : ℤ) : Prop := 0 ≤ row ∧ row < c.numWorkers

/-- The cells outside a row of `ucvf_queues`. -/
def offRow (row : ℤ) : Set Tally := {cell | ∀ col, cell ≠ .ucvf row col}

/-- The same was done since the traces `t` and `t'`. -/
def SameSince (t t' : List Event) (st st' : State) : Prop :=
  ∃ new, st.trace = new ++ t ∧ st'.trace = new ++ t'

/-- The call behaves differently in some states that differ only in the row. -/
def MainCall.UsesRow (c : Config) (row : ℤ) (call : MainCall) : Prop :=
  ∃ fuel st st', Agree (offRow row) st.trace st'.trace st st' ∧
    ¬ Option.Rel (SameSince st.trace st'.trace) (call.exec c fuel st) (call.exec c fuel st')

/-- All rows of `ucvf_queues` that `main` uses are rows of workers. -/
def Config.InBounds (c : Config) : Prop :=
  ∀ call ∈ c.mainCalls, ∀ row, call.UsesRow c row → c.IsWorker row

variable {c : Config} {row wid iter myStage isMyIter : ℤ}

theorem agree_sameSince {S : Set Tally} {t t' : List Event} {r r' : Option State}
    (h : Option.Rel (Agree S t t') r r') : Option.Rel (SameSince t t') r r' := by
  cases h with
  | none => exact .none
  | some h => exact .some h.events

/-! ## Only these rows are used -/

theorem usesRow_reads {call : MainCall} (h : call.UsesRow c row) :
    ∃ col, .ucvf row col ∈ call.reads c := by
  by_contra hnone
  push Not at hnone
  obtain ⟨fuel, st, st', hagree, hdiffer⟩ := h
  have hS : call.reads c ⊆ offRow row := by
    rintro cell hcell col rfl
    exact hnone col hcell
  exact hdiffer (agree_sameSince (call.agree hagree hS fuel))

/-! ## The rows that `begin_iter` uses -/

/-- With fuel for one round, a receive loop returns from an empty queue only,
    and leaves it as it is. -/
theorem receiveAll_one {q : Tally} {st st' : State} (h : receiveAll q wid 1 st = some st') :
    st.tally q = 0 ∧ st'.tally = st.tally := by
  rw [receiveAll] at h
  split_ifs at h with hdone
  · obtain rfl := Option.some.inj h
    rcases queueConsume_cases q st with ⟨h0, -⟩ | ⟨-, type, htype, heq⟩
    · rw [(receivePacket_done wid h0).2]
      exact ⟨h0, rfl⟩
    · unfold receivePacket at hdone
      rw [heq] at hdone
      cases type with
      | normal => exact absurd hdone Bool.false_ne_true
      | super =>
        dsimp only at hdone
        split_ifs at hdone
      | done => exact absurd rfl htype
      | alloc => exact absurd hdone Bool.false_ne_true
  · cases h

/-- States with tallies that are zero but for one cell. -/
def State.withTally (c : Config) (cell : Tally) (v : ℤ) : State :=
  { State.init c with tally := Function.update (fun _ => 0) cell v }

@[simp] theorem withTally_tally (c : Config) (cell : Tally) (v : ℤ) :
    (State.withTally c cell v).tally = Function.update (fun _ => 0) cell v := rfl

theorem withTally_agree (c : Config) (row col v v' : ℤ) :
    Agree (offRow row) [] [] (.withTally c (.ucvf row col) v)
      (.withTally c (.ucvf row col) v') where
  tally cell hcell := by
    rw [withTally_tally, withTally_tally, Function.update_of_ne (hcell col),
      Function.update_of_ne (hcell col)]
  numRoPages := rfl
  prediction := rfl
  isVer := rfl
  events := ⟨[], rfl, rfl⟩

/-- The receive loop of each source makes a round for the packet in its queue. -/
theorem beginIter_usesRow {i : ℕ} (hi : i < myStage.toNat) :
    (MainCall.beginIter wid iter myStage isMyIter).UsesRow c (c.modNumWorkers (wid + i)) := by
  let q : Tally := .ucvf (c.modNumWorkers (wid + i)) wid
  refine ⟨1, .withTally c q 0, .withTally c q 1, withTally_agree c _ _ _ _, ?_⟩
  -- with empty queues every loop returns in one round
  have hempty : ∃ st', (MainCall.beginIter wid iter myStage isMyIter).exec c 1
      (.withTally c q 0) = some st' := by
    have hround : ∀ k < rounds 0 myStage.toNat 1, ∀ st : State, (∀ cell, st.tally cell = 0) →
        ∃ st', receiveAll (.ucvf (c.modNumWorkers (wid + (0 + 1 * k : ℕ))) wid) wid 1 st =
          some st' ∧ ∀ cell, st'.tally cell = 0 := by
      intro k _ st hst
      exact ⟨st.charge 6, receiveAll_empty wid 0 (hst _), hst⟩
    have hzero : ∀ cell, (State.withTally c q 0).tally cell = 0 := by
      intro cell
      rw [withTally_tally, Function.update_apply, ite_self]
    obtain ⟨st₁, hrecv, -⟩ :=
      forN?_induct (fun _ (st : State) => ∀ cell, st.tally cell = 0) hzero hround
    rw [MainCall.exec, beginIter, forLoop?, hrecv]
    exact ⟨_, rfl⟩
  -- with a packet in the queue, its loop needs a second one
  have hpacket : (MainCall.beginIter wid iter myStage isMyIter).exec c 1
      (.withTally c q 1) = none := by
    rw [MainCall.exec, beginIter, forLoop?]
    refine Option.bind_eq_none_iff.2 ?_
    intro st₁ hrecv
    obtain ⟨t, t', ht, hround⟩ := forN?_round hrecv (k := i) (by rwa [rounds_one])
    have hsame : t.tally = (State.withTally c q 1).tally := by
      refine forN?_keeps (fun (st : State) => st.tally = (State.withTally c q 1).tally) ?_ ht rfl
      intro k s s' hs' hs
      exact (receiveAll_one hs').2.trans hs
    have hzero := (receiveAll_one hround).1
    rw [Nat.zero_add, Nat.one_mul, hsame] at hzero
    rw [withTally_tally, Function.update_self] at hzero
    exact absurd hzero one_ne_zero
  obtain ⟨st', hst'⟩ := hempty
  rw [hst', hpacket]
  intro hrel
  cases hrel

/-! ## The rows that `end_iter` uses -/

/-- The function only adds to the trace. -/
def Extends (f : State → State) : Prop := ∀ st, ∃ new, (f st).trace = new ++ st.trace

/-- `g` starts with what `f` does. -/
def StartsWith (g f : State → State) : Prop := ∃ h, Extends h ∧ ∀ st, g st = h (f st)

/-- A function that keeps every agreement only adds to the trace. -/
theorem Extends.of_agree {f : State → State}
    (h : ∀ {t st}, Agree Set.univ t t st st → Agree Set.univ t t (f st) (f st)) : Extends f := by
  intro st
  obtain ⟨new, hnew, -⟩ := (h (t := st.trace) ⟨fun _ _ => rfl, rfl, rfl, rfl, [], rfl, rfl⟩).events
  exact ⟨new, hnew⟩

theorem Extends.comp {f g : State → State} (hf : Extends f) (hg : Extends g) :
    Extends fun st => g (f st) := by
  intro st
  obtain ⟨new, hnew⟩ := hf st
  obtain ⟨new', hnew'⟩ := hg (f st)
  exact ⟨new' ++ new, by rw [hnew', hnew, List.append_assoc]⟩

namespace StartsWith

variable {f g g' : State → State}

theorem trans (hg : StartsWith g' g) (hf : StartsWith g f) : StartsWith g' f := by
  obtain ⟨h, hh, hgh⟩ := hg
  obtain ⟨k, hk, hfk⟩ := hf
  exact ⟨fun st => h (k st), hk.comp hh, fun st => by rw [hgh, hfk]⟩

theorem comp (hg : StartsWith g f) (h : Extends g') : StartsWith (fun st => g' (g st)) f :=
  trans ⟨g', h, fun _ => rfl⟩ hg

/-- A loop starts with its rounds up to one of them. -/
theorem forN {body : ℕ → State → State} (hbody : ∀ i, Extends (body i)) {n k : ℕ} (hk : k < n) :
    StartsWith (Loop.forN n body) fun st => body k (Loop.forN k body st) := by
  induction n with
  | zero => exact absurd hk (Nat.not_lt_zero k)
  | succ n ih =>
    rcases Nat.lt_succ_iff_lt_or_eq.1 hk with hlt | rfl
    · exact (ih hlt).comp (hbody n)
    · exact ⟨id, fun st => ⟨[], rfl⟩, fun _ => rfl⟩

/-- A loop starts with what its first round starts with. -/
theorem forLoop {body : ℕ → State → State} (hbody : ∀ i, Extends (body i)) {stop step : ℕ}
    (hstop : 0 < rounds 0 stop step) (h : StartsWith (body 0) f) :
    StartsWith (Loop.forLoop 0 stop step body) f :=
  trans (forN (fun i => hbody (0 + step * i)) hstop) h

theorem not_sameSince (h : StartsWith g f) {st st' : State} {t t' d d' e : List Event}
    (hst : (f st).trace = d ++ e ++ t) (hst' : (f st').trace = d' ++ e ++ t')
    (hlen : d.length = d'.length) (hne : d ≠ d') : ¬ SameSince t t' (g st) (g st') := by
  rintro ⟨new, hnew, hnew'⟩
  obtain ⟨k, hk, hgk⟩ := h
  obtain ⟨n, hn⟩ := hk (f st)
  obtain ⟨n', hn'⟩ := hk (f st')
  rw [hgk, hn, hst, ← List.append_assoc] at hnew
  rw [hgk, hn', hst', ← List.append_assoc] at hnew'
  have hsame := (List.append_cancel_right hnew).trans (List.append_cancel_right hnew').symm
  have hde := (List.append_inj' hsame (by simp [hlen])).2
  exact hne (List.append_cancel_right hde)

end StartsWith

theorem Extends.forLoop {body : ℕ → State → State} (hbody : ∀ i, Extends (body i))
    (start stop step : ℕ) : Extends (Loop.forLoop start stop step body) := by
  intro st
  refine forN_induct (fun _ (st' : State) => ∃ new, st'.trace = new ++ st.trace) ⟨[], rfl⟩ ?_
  rintro k - st' ⟨new, hnew⟩
  obtain ⟨new', hnew'⟩ := hbody (start + step * k) st'
  exact ⟨new' ++ new, by rw [hnew', hnew, List.append_assoc]⟩

section EndIter

variable (c wid myStage isMyIter)

theorem forwardToStage_extends (i : ℕ) : Extends (forwardToStage c wid isMyIter i) :=
  Extends.of_agree fun h => h.forwardToStage (fun _ _ _ => trivial) fun _ _ _ => trivial

theorem searchAndProduce_extends : Extends fun st =>
    queueProduce (.queue wid (getAvailablePacket c wid c.numAuxWorkers st).1)
      (getAvailablePacket c wid c.numAuxWorkers st).2 :=
  Extends.of_agree fun h => h.searchAndProduce trivial

theorem forwardPacket_extends (shadowSize : ℤ) :
    Extends (forwardPacket c wid shadowSize myStage isMyIter) :=
  (Extends.forLoop (forwardToStage_extends c wid isMyIter) _ _ _).comp
    (searchAndProduce_extends c wid)

theorem forwardPair_extends (shadowSize : ℤ) :
    Extends (forwardPair c wid shadowSize myStage isMyIter) := by
  have hone := forwardPacket_extends c wid myStage isMyIter shadowSize
  have hword := forwardPacket_extends c wid myStage isMyIter 8
  exact (hone.comp hone).comp (Extends.forLoop (fun _ => hword.comp hword) _ _ _)

/-- The rounds of `forward_packet` up to one of them. -/
def sendUpTo (k : ℕ) (st : State) : State :=
  forN k (fun k => forwardToStage c wid isMyIter ((asUnsigned (myStage + 1)).toNat + 1 * k)) st

/-- `end_iter` sends the first packet first. -/
theorem forwardPages_startsWith {k : ℕ}
    (hk : (asUnsigned (myStage + 1)).toNat + k < c.numStages) :
    StartsWith (forwardPages c wid myStage isMyIter)
      (sendUpTo c wid myStage isMyIter (k + 1)) := by
  have hround : k < rounds (asUnsigned (myStage + 1)).toNat c.numStages 1 := by
    rw [rounds_one]
    omega
  have hpacket (shadowSize : ℤ) : StartsWith (forwardPacket c wid shadowSize myStage isMyIter)
      (sendUpTo c wid myStage isMyIter (k + 1)) :=
    (StartsWith.forN (fun _ => forwardToStage_extends c wid isMyIter _) hround).comp
      (searchAndProduce_extends c wid)
  have hpair : StartsWith (forwardPair c wid 0 myStage isMyIter)
      (sendUpTo c wid myStage isMyIter (k + 1)) := by
    have hone := forwardPacket_extends c wid myStage isMyIter 0
    have hword := forwardPacket_extends c wid myStage isMyIter 8
    exact ((hpacket 0).comp hone).comp (Extends.forLoop (fun _ => hword.comp hword) _ _ _)
  -- the sizes that the pages are forwarded with do not matter
  have hextends (n : ℕ) : Extends (forLoop 0 n 1 fun _ => forwardPair c wid 0 myStage isMyIter) :=
    Extends.forLoop (fun _ => forwardPair_extends c wid myStage isMyIter 0) _ _ _
  have hpages {n : ℕ} (hn : 0 < n) : StartsWith
      (forLoop 0 n 1 fun _ => forwardPair c wid 0 myStage isMyIter)
      (sendUpTo c wid myStage isMyIter (k + 1)) :=
    StartsWith.forLoop (fun _ => forwardPair_extends c wid myStage isMyIter 0)
      (by rwa [rounds_one]) hpair
  have hheaps : 0 < c.numHeaps := (Nat.zero_le _).trans_lt hk
  rcases Nat.eq_zero_or_pos c.numGlobals with h0 | hpos
  · have heq : forwardPages c wid myStage isMyIter = fun st =>
        forLoop 0 c.numStacks 1 (fun _ => forwardPair c wid 0 myStage isMyIter)
          (forLoop 0 c.numHeaps 1 (fun _ => forwardPair c wid 0 myStage isMyIter) st) := by
      funext st
      unfold forwardPages
      rw [h0]
      rfl
    rw [heq]
    exact (hpages hheaps).comp (hextends _)
  · exact ((hpages hpos).comp (hextends _)).comp (hextends _)

variable {c wid myStage isMyIter}

/-- A packet changes no other row. -/
theorem forwardToStage_otherRow (hmine : isMyIter ≠ 0) {i : ℕ} {row col : ℤ}
    (hrow : row ≠ c.forwardSource wid i) (st : State) :
    (forwardToStage c wid isMyIter i st).tally (.ucvf row col) = st.tally (.ucvf row col) := by
  have hinj : Function.Injective fun idx : ℕ => Tally.ucvf (c.forwardSource wid i) idx := by
    intro i j h
    simpa using h
  obtain ⟨-, hother, -⟩ := put_row hinj (12 - c.numAuxWorkers) st
  unfold forwardToStage
  rw [if_neg hmine, c.numWorkers_eq]
  exact hother (.ucvf row col) (by simp [hrow])

/-- A packet for an empty row is put into its first queue. -/
theorem forwardToStage_first (hmine : isMyIter ≠ 0) (i : ℕ) {st : State}
    (hlt : st.tally (.ucvf (c.forwardSource wid i) 0) < queueLimit) :
    (forwardToStage c wid isMyIter i st).trace =
      [.charge 300, .store (.ucvf (c.forwardSource wid i) 0)
        (st.tally (.ucvf (c.forwardSource wid i) 0) + 1), .charge 6, .charge 1200] ++
        st.trace := by
  have hzero : FirstFit.find (fun idx => decide (st.tally (.ucvf (c.forwardSource wid i) idx) ≥
      queueLimit)) (12 - c.numAuxWorkers) 0 = 0 :=
    FirstFit.find_self (decide_eq_false (not_le.2 hlt)) _
  have hwidth : 0 < 12 - c.numAuxWorkers := Nat.sub_pos_of_lt c.aux_lt
  unfold forwardToStage getAvailableUcvfPacket
  rw [if_neg hmine, c.numWorkers_eq]
  rcases getAvailable_cases (fun idx => decide (st.tally (.ucvf (c.forwardSource wid i) idx) ≥
      queueLimit)) (.ucvf (c.forwardSource wid i) 0) (12 - c.numAuxWorkers) st with
    ⟨-, -, heq⟩ | ⟨hall, -, -⟩
  · dsimp only
    rw [heq, hzero]
    rfl
  · omega

theorem updateShadowPredictions_tally (st : State) :
    (updateShadowPredictions c st).tally = st.tally := by
  have hcount (buf : ℕ → ℕ → ℤ) (nl nc : ℤ) (st : State) :
      (countEntries buf nl nc st).2.tally = st.tally := by
    refine forLoop_same (fun r : ℤ × State => r.2.tally) ?_ _ _ _ (0, st)
    intro i r
    refine forLoop_same (fun r : ℤ × State => r.2.tally) ?_ _ _ _ r
    intro j r
    refine forLoop_same State.tally ?_ _ _ _ (r.2.charge 4)
    intro _ st
    rfl
  exact (hcount _ _ _ _).trans (hcount _ _ _ _)

/-- The first packet for a row that is empty. -/
theorem sendUpTo_first (hmine : isMyIter ≠ 0) {row : ℤ} {k : ℕ}
    (hk : c.forwardSource wid ((asUnsigned (myStage + 1)).toNat + 1 * k) = row)
    (hbefore : ∀ j < k, c.forwardSource wid ((asUnsigned (myStage + 1)).toNat + 1 * j) ≠ row)
    {st : State} (hlt : st.tally (.ucvf row 0) < queueLimit) :
    (sendUpTo c wid myStage isMyIter (k + 1) st).trace =
      [.charge 300, .store (.ucvf row 0) (st.tally (.ucvf row 0) + 1), .charge 6, .charge 1200] ++
        (sendUpTo c wid myStage isMyIter k st).trace := by
  have htally : (sendUpTo c wid myStage isMyIter k st).tally (.ucvf row 0) =
      st.tally (.ucvf row 0) := by
    refine forN_induct (fun _ (st' : State) =>
      st'.tally (.ucvf row 0) = st.tally (.ucvf row 0)) rfl ?_
    intro j hj st' hst'
    rw [forwardToStage_otherRow hmine (hbefore j hj).symm, hst']
  have hstep : sendUpTo c wid myStage isMyIter (k + 1) st =
      forwardToStage c wid isMyIter ((asUnsigned (myStage + 1)).toNat + 1 * k)
        (sendUpTo c wid myStage isMyIter k st) := rfl
  subst hk
  rw [hstep, forwardToStage_first hmine _ (by rwa [htally]), htally]

/-- Every packet for a later stage looks at the first queue of its row. -/
theorem endIter_usesRow (hmine : isMyIter ≠ 0) {i : ℕ} (hlo : (asUnsigned (myStage + 1)).toNat ≤ i)
    (hhi : i < c.numStages) :
    (MainCall.endIter wid myStage isMyIter).UsesRow c (c.forwardSource wid i) := by
  let row := c.forwardSource wid i
  have hi : c.forwardSource wid ((asUnsigned (myStage + 1)).toNat +
      1 * (i - (asUnsigned (myStage + 1)).toNat)) = row := by
    rw [Nat.one_mul, Nat.add_sub_cancel' hlo]
  -- the first packet for the row
  obtain ⟨k, hki, hk, hbefore⟩ : ∃ k ≤ i - (asUnsigned (myStage + 1)).toNat,
      c.forwardSource wid ((asUnsigned (myStage + 1)).toNat + 1 * k) = row ∧
      ∀ j < k, c.forwardSource wid ((asUnsigned (myStage + 1)).toNat + 1 * j) ≠ row := by
    have hex : ∃ k, c.forwardSource wid ((asUnsigned (myStage + 1)).toNat + 1 * k) = row := ⟨_, hi⟩
    exact ⟨Nat.find hex, Nat.find_min' hex hi, Nat.find_spec hex, fun j hj => Nat.find_min hex hj⟩
  let start (v : ℤ) : State := updateShadowPredictions c (.withTally c (.ucvf row 0) v)
  have hstart (v : ℤ) : (start v).tally (.ucvf row 0) = v := by
    rw [updateShadowPredictions_tally, withTally_tally, Function.update_self]
  have hagree : Agree (offRow row) [] [] (sendUpTo c wid myStage isMyIter k (start 0))
      (sendUpTo c wid myStage isMyIter k (start 1)) := by
    refine forN_related ?_ ((withTally_agree c row 0 0 1).updateShadowPredictions c)
    intro j hj st st' h
    refine h.forwardToStage (fun h0 => absurd h0 hmine) ?_
    intro _ idx _ col heq
    exact hbefore j hj (Tally.ucvf.inj heq).1
  obtain ⟨e, he, he'⟩ := hagree.events
  have hfirst (v : ℤ) (hv : v < queueLimit) :
      (sendUpTo c wid myStage isMyIter (k + 1) (start v)).trace =
        [.charge 300, .store (.ucvf row 0) (v + 1), .charge 6, .charge 1200] ++
          (sendUpTo c wid myStage isMyIter k (start v)).trace := by
    have := sendUpTo_first hmine hk hbefore (by rwa [hstart v])
    rwa [hstart] at this
  have h0 := (hfirst 0 (by decide)).trans (by rw [he, ← List.append_assoc])
  have h1 := (hfirst 1 (by decide)).trans (by rw [he', ← List.append_assoc])
  have hdiffer := (forwardPages_startsWith c wid myStage isMyIter (k := k) (by omega)).not_sameSince
    h0 h1 rfl (by simp)
  refine ⟨0, .withTally c (.ucvf row 0) 0, .withTally c (.ucvf row 0) 1,
    withTally_agree c _ _ _ _, ?_⟩
  intro hrel
  rw [MainCall.exec, MainCall.exec, endIter_eq, endIter_eq, if_pos hmine, if_pos hmine] at hrel
  cases hrel with
  | some h => exact hdiffer h

end EndIter

/-! ## The rows of the calls -/

theorem beginIter_usesRow_iff : (MainCall.beginIter wid iter myStage isMyIter).UsesRow c row ↔
    ∃ i < myStage.toNat, row = c.modNumWorkers (wid + i) := by
  constructor
  · intro h
    obtain ⟨col, ⟨i, hi, heq⟩ | ⟨-, -, k, -, heq⟩⟩ := usesRow_reads h
    · exact ⟨i, hi, (Tally.ucvf.inj heq).1⟩
    · cases heq
  · rintro ⟨i, hi, rfl⟩
    exact beginIter_usesRow hi

theorem not_busyWait_usesRow : ¬ (MainCall.busyWait wid).UsesRow c row := by
  intro h
  obtain ⟨col, hcell⟩ := usesRow_reads h
  cases hcell

theorem endIter_usesRow_iff : (MainCall.endIter wid myStage isMyIter).UsesRow c row ↔
    isMyIter ≠ 0 ∧ ∃ i, (asUnsigned (myStage + 1)).toNat ≤ i ∧ i < c.numStages ∧
      row = c.forwardSource wid i := by
  constructor
  · intro h
    obtain ⟨col, -, heq | ⟨i, hlo, hhi, ⟨-, idx, -, heq⟩ | ⟨hmine, idx, -, heq⟩⟩⟩ := usesRow_reads h
    · cases heq
    · cases heq
    · exact ⟨hmine, i, hlo, hhi, (Tally.ucvf.inj heq).1⟩
  · rintro ⟨hmine, i, hlo, hhi, rfl⟩
    exact endIter_usesRow hmine hlo hhi

/-! ## In bounds -/

theorem isWorker_row {res : ℕ} (hres : res < 12) :
    c.IsWorker (c.row res) ↔ c.numAuxWorkers ≤ res := by
  unfold Config.IsWorker Config.row Config.numWorkers
  omega

theorem isWorker_modNumWorkers (w i : ℕ) :
    c.IsWorker (c.modNumWorkers (w + i)) ↔ c.numAuxWorkers ≤ (w + i) % 12 :=
  isWorker_row (Nat.mod_lt _ (by decide))

theorem isWorker_forwardSource {w i : ℕ} (hw : w < c.width) (hi : i < c.numStages) :
    c.IsWorker (c.forwardSource w i) ↔ c.numAuxWorkers ≤ (w + i) % 12 := by
  have hheaps : i < 2 ^ 31 := hi.trans c.heaps_lt
  have hworker : w < 12 := hw.trans_le (Nat.sub_le _ _)
  rw [c.forwardSource_eq hworker hheaps]
  exact isWorker_row (Nat.mod_lt _ (by decide))

/-- The stage of a worker in an iteration, in the calls of `main`. -/
theorem mem_mainCalls {call : MainCall} : call ∈ c.mainCalls ↔
    ∃ w < c.width, ∃ iter < c.iters, call ∈ iterCalls w iter
      ⟨c.stageAt w iter, if w % c.numWorkersPerHeap ≤ iter then 1 else 0⟩ := by
  unfold Config.mainCalls driverCalls
  simp only [mem_loopCalls, varsAt_eq]

/-- The sources that the receive loops of `main` compute. -/
theorem Config.InBounds.receive (h : c.InBounds) {w iter i : ℕ} (hw : w < c.width)
    (hiter : iter < c.iters) (hi : i < c.stageAt w iter) : c.numAuxWorkers ≤ (w + i) % 12 := by
  rw [← isWorker_modNumWorkers]
  refine h _ (mem_mainCalls.2 ⟨w, hw, iter, hiter, List.mem_cons_self⟩) _ ?_
  exact beginIter_usesRow_iff.2 ⟨i, by rwa [Int.toNat_natCast], rfl⟩

/-- The sources that the packets of the first iterations of `main` go to. -/
theorem Config.InBounds.forward (h : c.InBounds) {w i : ℕ} (hw : w < c.width)
    (hiters : 0 < c.iters) (hstage : c.stageAt w 0 ≠ 0) (hlo : 0 < i) (hhi : i < c.numStages) :
    c.numAuxWorkers ≤ (w + i) % 12 := by
  rw [← isWorker_forwardSource hw hhi]
  refine h (.endIter w (0 : ℕ) (c.stageAt w 0)) (mem_mainCalls.2 ⟨w, hw, 0, hiters, ?_⟩) _ ?_
  · simp [iterCalls]
  · exact endIter_usesRow_iff.2 ⟨by exact_mod_cast hstage, i, hlo, hhi, rfl⟩

/-- Where no source is below the table, no row is. -/
theorem inBounds_of_sources
    (h : ∀ w < c.width, ∀ iter < c.iters, c.stageAt w iter ≠ 0 →
      ∀ i, c.numAuxWorkers ≤ (w + i) % 12) : c.InBounds := by
  intro call hcall row hrow
  obtain ⟨w, hw, iter, hiter, hmem⟩ := mem_mainCalls.1 hcall
  simp only [iterCalls, List.mem_cons, List.mem_append, List.not_mem_nil, or_false] at hmem
  rcases hmem with rfl | hmem | rfl
  · obtain ⟨i, hi, rfl⟩ := beginIter_usesRow_iff.1 hrow
    rw [Int.toNat_natCast] at hi
    rw [isWorker_modNumWorkers]
    exact h w hw iter hiter (Nat.ne_zero_of_lt hi) i
  · split_ifs at hmem
    · obtain rfl := List.mem_singleton.1 hmem
      exact absurd hrow not_busyWait_usesRow
    · cases hmem
  · obtain ⟨hmine, i, -, hhi, rfl⟩ := endIter_usesRow_iff.1 hrow
    rw [isWorker_forwardSource hw hhi]
    exact h w hw iter hiter (by exact_mod_cast hmine) i

/-- **When the rows are rows of workers.**  A single source is one if the
    remainder modulo `12` reaches the number of auxiliary workers; the rows that
    `main` uses are, if there are no auxiliary workers, or all stages are `0`. -/
theorem inBounds_iff (c : Config) :
    (∀ wid < c.width, ∀ i : ℕ,
      c.IsWorker (c.modNumWorkers (wid + i)) ↔ c.numAuxWorkers ≤ (wid + i) % 12) ∧
    (∀ wid < c.width, ∀ i < c.numStages,
      c.IsWorker (c.forwardSource wid i) ↔ c.numAuxWorkers ≤ (wid + i) % 12) ∧
    (c.InBounds ↔ c.numAuxWorkers = 0 ∨ c.stride = 0 ∨
      c.stride = 1 ∧ (c.numWorkersPerHeap = 1 ∨ c.width = 1)) := by
  have haux := c.aux_lt
  have hk := c.perHeap_pos
  have hwidth : 0 < c.width := Nat.sub_pos_of_lt haux
  refine ⟨fun wid _ i => isWorker_modNumWorkers wid i,
    fun wid hw i hi => isWorker_forwardSource hw hi, ?_, ?_⟩
  · intro h
    by_contra hnot
    obtain ⟨hA, hstride, hone⟩ : 0 < c.numAuxWorkers ∧ 0 < c.stride ∧
        (c.stride = 1 → c.numWorkersPerHeap ≠ 1 ∧ c.width ≠ 1) := by
      omega
    rcases Nat.lt_or_ge 1 c.stride with htwo | hle
    · -- the first worker comes to a later stage, and receives from itself
      have hiter : c.numWorkersPerHeap < c.iters := lt_mul_of_one_lt_left hk htwo
      have hstage : 0 < c.stageAt 0 c.numWorkersPerHeap := by
        simp [Config.stageAt, Nat.div_self hk, hstride]
      have := h.receive hwidth hiter hstage
      omega
    · -- the second worker is at stage `1` from the start, with twelve stages or more
      have hjump : c.stride = 1 := by omega
      obtain ⟨hk1, hw1⟩ := hone hjump
      have hworker : 1 < c.width := by omega
      have hiters : 0 < c.iters := by
        rw [Config.iters, hjump, Nat.one_mul]
        exact hk
      have hstage : c.stageAt 1 0 = 1 := by
        rw [Config.stageAt, Nat.zero_div, Nat.zero_mul, Nat.mod_eq_of_lt (by omega)]
      have hreceive := h.receive hworker hiters (by rw [hstage]; exact Nat.one_pos)
      have hA1 : c.numAuxWorkers = 1 := by omega
      have hgroups : c.groups = 12 := by
        rw [Config.groups, hA1, Nat.div_eq_of_lt (by omega)]
      have hstages : 12 ≤ c.numStages := by
        have hpos : 0 < c.numHeaps / 12 := by
          rw [← hgroups]
          exact hstride
        exact (Nat.div_pos_iff.1 hpos).2
      have := h.forward hworker hiters (by omega) (i := 11) (by decide) (by omega)
      omega
  · intro h
    refine inBounds_of_sources ?_
    intro w hw iter hiter hstage i
    rcases h with hA | hstages
    · rw [hA]
      exact Nat.zero_le _
    · have hzero := (stages_zero_iff hk hwidth).2 hstages w hw iter hiter
      rw [varsAt_myStage] at hzero
      exact absurd hzero hstage

/-- The second worker receives from row `-1` first. -/
theorem not_inBounds : ¬ Config.default.InBounds := by
  rw [(inBounds_iff .default).2.2]
  decide

end SpecPriv.Simple
