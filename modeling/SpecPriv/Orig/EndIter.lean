/-
  `end_iter`: what a worker does at the end of an iteration.

  The owner of the iteration walks over the shadow pages of globals, stacks
  and heaps.  A page whose first byte has the touched bit loses the bit and,
  if there is metadata left, is forwarded by `forward_pair`.  The walk changes
  the metadata that it tests, and the three containers may share pages.

  `forwardPages_once`: whatever the containers repeat, the pages that need it
  are forwarded once each, in the order of their first occurrence, as parcels
  of the memory before the walk; their shadows are zero afterwards, and
  nothing else changes.
-/
import SpecPriv.Orig.Forward

namespace SpecPriv

structure VerMallocBuffer where
  elem : Fin pageSize → VerMallocInstance
  index : ℕ

/-- The state of a worker.  The shadow heaps are listed in the order of the
    set they are kept in. -/
structure Worker (am : AddressMap) extends Sender where
  shadowGlobals : List am.Shadow
  shadowStacks : List am.Shadow
  shadowHeaps : List am.Shadow
  verMallocBuffer : VerMallocBuffer
  currentIter : ℕ

/-- The parts of the runtime that `end_iter` rests on: the stages, and the
    updates of the metadata of predicted values. -/
structure Runtime where
  layout : StageLayout
  updateShadowForLoopInvariants : Memory → Memory
  updateShadowForLinearPredictedValues : Memory → Memory

variable {am : AddressMap}

/-- The touched bit of the page at `a`. -/
def touched (m : Memory) (a : ℕ) : Bool := m a &&& 0x80#8 ≠ 0#8

/-- `*shadow = *shadow & 0x7f`. -/
def clearTouched (m : Memory) (a : ℕ) : Memory := Function.update m a (m a &&& 0x7f#8)

/-- The body of the three loops. -/
def forwardShadow (wid : Wid) (iter : ℕ) (s : Sender) (shadow : am.Shadow) : Sender :=
  let a := shadow.1.addr
  if touched s.mem a then
    let m := clearTouched s.mem a
    if isZeroPage m a then { s with mem := m }
    else
      let r := clearRead a m
      forwardPair r.2 wid iter (am.getOriginalOf shadow).addr a .required { s with mem := r.1 }
  else s

def forwardShadows (wid : Wid) (iter : ℕ) (shadows : List am.Shadow) (s : Sender) : Sender :=
  shadows.foldl (forwardShadow wid iter) s

/-- The three loops of `end_iter` and the flush after them. -/
def forwardPages (wid : Wid) (iter : ℕ) (shadowGlobals shadowStacks shadowHeaps : List am.Shadow)
    (s : Sender) : Sender :=
  let s := forwardShadows wid iter shadowGlobals s
  let s := forwardShadows wid iter shadowStacks s
  let s := forwardShadows wid iter shadowHeaps s
  { s with out := forwardRoPage wid iter s.out }

/-- `sizeof(VerMallocInstance)`. -/
def sizeofVerMallocInstance : ℕ := 16

def endIter (rt : Runtime) (wid : Wid) (w : Worker am) : Worker am :=
  let iter := w.currentIter
  let w :=
    if runIteration rt.layout wid iter then
      let mem := rt.updateShadowForLoopInvariants w.mem
      let mem := rt.updateShadowForLinearPredictedValues mem
      let buf := w.verMallocBuffer
      let out := w.out.call
        (.broadcastMallocChunk wid buf.elem (buf.index * sizeofVerMallocInstance))
      let s := forwardPages wid iter w.shadowGlobals w.shadowStacks w.shadowHeaps ⟨mem, out⟩
      { w with toSender := s, verMallocBuffer := ⟨fun _ => ⟨0, 0, 0⟩, 0⟩ }
    else w
  let w :=
    if eoiTest rt.layout wid iter then
      { w with out := w.out.call (.broadcastEoi wid 0xDEADBEEF 0 0) }
    else w
  { w with currentIter := iter + 1 }

/-! ## Pages that need forwarding -/

/-- The page has metadata besides the touched bit. -/
def Marked (m : Memory) (s : am.Shadow) : Prop :=
  touched m s.1.addr ∧ ¬ isZeroPage (clearTouched m s.1.addr) s.1.addr

instance (m : Memory) (s : am.Shadow) : Decidable (Marked m s) :=
  inferInstanceAs (Decidable (_ ∧ ¬ _))

/-- The parcel of a touched page, of the memory before the walk. -/
def parcelOf (m : Memory) (s : am.Shadow) : Parcel :=
  parcel (clearTouched m s.1.addr) (am.getOriginalOf s).addr s.1.addr

/-- Send the parcels of some pages, one after the other. -/
def sendParcels (wid : Wid) (iter : ℕ) (m : Memory) (pages : List am.Shadow) (o : Outbox) :
    Outbox :=
  pages.foldl (fun o s => (parcelOf m s).send wid iter .required o) o

/-- The memory with the touched ones among some shadow pages zeroed. -/
def wipe (m : Memory) (l : List am.Shadow) : Memory := fun x =>
  if ∃ s ∈ l, touched m s.1.addr ∧ s.1.addr ≤ x ∧ x < s.1.addr + pageSize then 0#8 else m x

variable {wid : Wid} {iter : ℕ} {m m' : Memory} {a : ℕ} {l : List am.Shadow} {s : am.Shadow}
  {p : Page}

/-! ## One page -/

theorem setZeroPage_clearTouched : setZeroPage (clearTouched m a) a = setZeroPage m a := by
  funext x
  simp only [setZeroPage, Memory.fill, clearTouched, Function.update_apply]
  split_ifs with hx hxa
  · rfl
  · subst hxa
    exact absurd ⟨le_rfl, Nat.lt_add_of_pos_right pageSize_pos⟩ hx
  · rfl

/-- A page without metadata is zeroed by clearing the touched bit. -/
theorem clearTouched_eq_setZeroPage (h : isZeroPage (clearTouched m a) a) :
    clearTouched m a = setZeroPage m a := by
  rw [← setZeroPage_clearTouched]
  funext x
  by_cases hx : a ≤ x ∧ x < a + pageSize
  · obtain ⟨j, rfl⟩ := Nat.exists_eq_add_of_le hx.1
    rw [setZeroPage_apply a (by omega), isZeroPage_iff.1 h j (by omega)]
  · exact (setZeroPage_of_not_mem (by omega)).symm

/-- The body of the loops: a touched page is zeroed, and its parcel is sent if
    it has metadata. -/
theorem forwardShadow_eq (st : Sender) (s : am.Shadow) : forwardShadow wid iter st s =
    if touched st.mem s.1.addr then ⟨setZeroPage st.mem s.1.addr,
      if isZeroPage (clearTouched st.mem s.1.addr) s.1.addr then st.out
      else (parcelOf st.mem s).send wid iter .required st.out⟩
    else st := by
  unfold forwardShadow
  by_cases ht : touched st.mem s.1.addr
  · rw [if_pos ht, if_pos ht]
    by_cases hz : isZeroPage (clearTouched st.mem s.1.addr) s.1.addr
    · rw [if_pos hz, if_pos hz, clearTouched_eq_setZeroPage hz]
    · have hmem : (clearRead s.1.addr (clearTouched st.mem s.1.addr)).1 =
          clearTouched st.mem s.1.addr := by
        rw [clearRead_eq]
      simp only [if_neg hz, hmem]
      rw [forwardPair_eq ⟨clearTouched st.mem s.1.addr, st.out⟩ hz, setZeroPage_clearTouched]
      rfl
  · rw [if_neg ht, if_neg ht]

theorem AgreeOn.clearTouched_self (h : AgreeOn m m' a) :
    AgreeOn (clearTouched m a) (clearTouched m' a) a := by
  intro j hj
  have h0 : m a = m' a := h 0 pageSize_pos
  simp only [clearTouched, Function.update_apply]
  split_ifs
  · rw [h0]
  · exact h j hj

/-- Clearing the touched bit of a page leaves every other page as it was. -/
theorem clearTouched_other {q : Page} (h : p ≠ q) {j : ℕ} (hj : j < pageSize) :
    clearTouched m q.addr (p.addr + j) = m (p.addr + j) := by
  have hne : p.addr + j ≠ q.addr := by
    have hpos := pageSize_pos
    rcases Page.disjoint h with hd | hd <;> omega
  exact Function.update_of_ne hne _ _

theorem AgreeOn.touched (h : AgreeOn m m' a) : touched m a = touched m' a := by
  have h0 : m a = m' a := h 0 pageSize_pos
  unfold SpecPriv.touched
  rw [h0]

theorem original_ne (s t : am.Shadow) : am.getOriginalOf s ≠ t.1 := by
  intro h
  have hshadow := t.2
  rw [← h] at hshadow
  exact am.original_not_shadow s hshadow

/-- The parcel of a page depends on the page and its shadow only. -/
theorem parcelOf_congr (h : AgreeOn m m' s.1.addr) (h' : AgreeOn m m' (am.getOriginalOf s).addr) :
    parcelOf m s = parcelOf m' s := by
  have hdata : AgreeOn (clearTouched m s.1.addr) (clearTouched m' s.1.addr)
      (am.getOriginalOf s).addr := by
    intro j hj
    rw [clearTouched_other (original_ne s s) hj, clearTouched_other (original_ne s s) hj]
    exact h' j hj
  exact AgreeOn.parcel hdata h.clearTouched_self

/-! ## The memory during the walk -/

theorem wipe_of_touched (hs : s ∈ l) (ht : touched m s.1.addr) {j : ℕ} (hj : j < pageSize) :
    wipe m l (s.1.addr + j) = 0#8 :=
  if_pos ⟨s, hs, ht, by omega, by omega⟩

/-- A page that is not a touched one of `l` keeps its bytes. -/
theorem wipe_of_not_mem (h : ∀ s ∈ l, touched m s.1.addr → s.1 ≠ p) :
    AgreeOn (wipe m l) m p.addr := by
  intro j hj
  refine if_neg ?_
  rintro ⟨s, hs, ht, hlo, hhi⟩
  rcases Page.disjoint (h s hs ht) with hd | hd <;> omega

/-- The walk still has to do with the touched pages it did not meet yet. -/
theorem touched_wipe_iff : touched (wipe m l) s.1.addr ↔ touched m s.1.addr ∧ s ∉ l := by
  by_cases hs : s ∈ l ∧ touched m s.1.addr
  · have h0 : wipe m l s.1.addr = 0#8 := wipe_of_touched hs.1 hs.2 pageSize_pos
    simp [touched, h0, hs.1]
  · have hagree : AgreeOn (wipe m l) m s.1.addr := by
      refine wipe_of_not_mem ?_
      intro t ht htt hts
      obtain rfl := Subtype.ext hts
      exact hs ⟨ht, htt⟩
    rw [hagree.touched]
    tauto

theorem wipe_append_of_not_touched (h : ¬ touched (wipe m l) s.1.addr) :
    wipe m (l ++ [s]) = wipe m l := by
  rw [touched_wipe_iff, not_and, not_not] at h
  funext x
  refine if_congr ?_ rfl rfl
  simp only [List.mem_append, List.mem_singleton, or_and_right, exists_or, or_iff_left_iff_imp]
  rintro ⟨t, rfl, ht, hx⟩
  exact ⟨t, h ht, ht, hx⟩

theorem wipe_append_of_touched (h : touched m s.1.addr) :
    wipe m (l ++ [s]) = setZeroPage (wipe m l) s.1.addr := by
  funext x
  by_cases hx : s.1.addr ≤ x ∧ x < s.1.addr + pageSize
  · obtain ⟨j, rfl⟩ := Nat.exists_eq_add_of_le hx.1
    rw [setZeroPage_apply _ (by omega), wipe_of_touched (by simp) h (by omega)]
  · rw [setZeroPage_of_not_mem (by omega)]
    refine if_congr ?_ rfl rfl
    simp only [List.mem_append, List.mem_singleton, or_and_right, exists_or, or_iff_left_iff_imp]
    rintro ⟨t, rfl, -, hx'⟩
    exact absurd hx' hx

theorem sendParcels_concat (pages : List am.Shadow) (s : am.Shadow) (o : Outbox) :
    sendParcels wid iter m (pages ++ [s]) o =
      (parcelOf m s).send wid iter .required (sendParcels wid iter m pages o) := by
  unfold sendParcels
  rw [List.foldl_append, List.foldl_cons, List.foldl_nil]

theorem sendParcels_cons (s : am.Shadow) (pages : List am.Shadow) (o : Outbox) :
    sendParcels wid iter m (s :: pages) o =
      sendParcels wid iter m pages ((parcelOf m s).send wid iter .required o) := by
  unfold sendParcels
  rw [List.foldl_cons]

/-- The calls for some pages, apart from the flushes. -/
def pageCalls (wid : Wid) (iter : ℕ) (m : Memory) (pages : List am.Shadow) : List Call :=
  pages.flatMap fun s => (parcelOf m s).calls wid iter .required

/-- The entries of the read-only buffer for some pages. -/
def pageEntries (m : Memory) (pages : List am.Shadow) : List ℕ :=
  pages.flatMap fun s => (parcelOf m s).entries

theorem sendParcels_direct (m : Memory) : ∀ (pages : List am.Shadow) (o : Outbox),
    directCalls (sendParcels wid iter m pages o).log =
      directCalls o.log ++ pageCalls wid iter m pages
  | [], o => by simp [sendParcels, pageCalls]
  | s :: pages, o => by
    rw [sendParcels_cons, sendParcels_direct m pages, Parcel.send_direct, List.append_assoc,
      pageCalls, pageCalls, List.flatMap_cons]

/-- The only page that a parcel enters in the buffer is the original page. -/
theorem parcelOf_entries_ne_zero : ∀ mem ∈ (parcelOf m s).entries, mem ≠ 0 := by
  intro mem hmem
  have h0 := am.original_ne_null s
  unfold parcelOf parcel at hmem
  split_ifs at hmem
  · rwa [List.mem_singleton.1 hmem]
  · cases hmem
  · cases hmem

theorem sendParcels_sends (wid : Wid) (iter : ℕ) (m : Memory) :
    ∀ (pages : List am.Shadow) {o : Outbox} {xs : List ℕ},
    o.roPageBuffer.Pending xs →
      ∃ xs', Sends iter o (sendParcels wid iter m pages o) xs (pageEntries m pages) xs'
  | [], o, xs, h => ⟨xs, h, [], by simp [sendParcels], by simp [pageEntries], by simp⟩
  | s :: pages, o, xs, h => by
    obtain ⟨ys, hys⟩ := (parcelOf m s).send_sends wid h parcelOf_entries_ne_zero
    obtain ⟨zs, hzs⟩ := sendParcels_sends wid iter m pages hys.pending
    rw [sendParcels_cons, pageEntries, List.flatMap_cons]
    exact ⟨zs, hys.trans hzs⟩

/-! ## The walk -/

/-- The walk has met the pages `l` and forwarded `pages` of them. -/
structure Walked (wid : Wid) (iter : ℕ) (m : Memory) (o : Outbox) (l pages : List am.Shadow)
    (st : Sender) : Prop where
  mem : st.mem = wipe m l
  out : st.out = sendParcels wid iter m pages o
  nodup : pages.Nodup
  sublist : pages.Sublist l
  mem_iff : ∀ s, s ∈ pages ↔ s ∈ l ∧ Marked m s

variable {o : Outbox} {pages : List am.Shadow} {st : Sender}

theorem Walked.nil (wid : Wid) (iter : ℕ) (m : Memory) (o : Outbox) :
    Walked wid iter m o ([] : List am.Shadow) [] ⟨m, o⟩ where
  mem := by
    funext x
    simp [wipe]
  out := rfl
  nodup := List.nodup_nil
  sublist := .slnil
  mem_iff := by simp

/-- One page: what was done so far says whether the page still needs to be
    forwarded. -/
theorem Walked.step (h : Walked wid iter m o l pages st) (s : am.Shadow) :
    ∃ pages', Walked wid iter m o (l ++ [s]) pages' (forwardShadow wid iter st s) := by
  have hold : pages.Sublist (l ++ [s]) := h.sublist.trans (List.sublist_append_left _ _)
  have hmem_iff : ¬ (Marked m s ∧ s ∉ l) → ∀ t, t ∈ pages ↔ t ∈ l ++ [s] ∧ Marked m t := by
    intro hs t
    rw [h.mem_iff, List.mem_append, List.mem_singleton]
    constructor
    · rintro ⟨ht, hm⟩
      exact ⟨Or.inl ht, hm⟩
    · rintro ⟨ht | rfl, hm⟩
      · exact ⟨ht, hm⟩
      · refine ⟨?_, hm⟩
        by_contra hl
        exact hs ⟨hm, hl⟩
  rw [forwardShadow_eq, h.mem]
  by_cases ht : touched (wipe m l) s.1.addr
  · obtain ⟨htm, hsl⟩ := touched_wipe_iff.1 ht
    have hagree : AgreeOn (wipe m l) m s.1.addr := by
      refine wipe_of_not_mem ?_
      intro t ht' _ hts
      obtain rfl := Subtype.ext hts
      exact hsl ht'
    have horig : AgreeOn (wipe m l) m (am.getOriginalOf s).addr := by
      refine wipe_of_not_mem ?_
      intro t _ _
      exact (original_ne s t).symm
    rw [if_pos ht, hagree.clearTouched_self.isZeroPage, parcelOf_congr hagree horig,
      ← wipe_append_of_touched htm]
    by_cases hz : isZeroPage (clearTouched m s.1.addr) s.1.addr
    · -- nothing but the touched bit: the page is wiped and not forwarded
      rw [if_pos hz]
      refine ⟨pages, rfl, h.out, h.nodup, hold, hmem_iff ?_⟩
      rintro ⟨⟨-, hnz⟩, -⟩
      exact hnz hz
    · rw [if_neg hz]
      have hnew : s ∉ pages := by
        intro hs
        exact hsl (h.sublist.subset hs)
      refine ⟨pages ++ [s], rfl, ?_, ?_, h.sublist.append (List.Sublist.refl _), ?_⟩
      · rw [sendParcels_concat, h.out]
      · exact List.nodup_append'.2 ⟨h.nodup, List.nodup_singleton s, by simpa using hnew⟩
      · intro t
        rw [List.mem_append, List.mem_append, h.mem_iff, List.mem_singleton, or_and_right]
        refine or_congr_right ?_
        constructor
        · rintro rfl
          exact ⟨rfl, htm, hz⟩
        · rintro ⟨rfl, -⟩
          rfl
  · rw [if_neg ht]
    have hwipe : st.mem = wipe m (l ++ [s]) := by rw [wipe_append_of_not_touched ht, h.mem]
    refine ⟨pages, hwipe, h.out, h.nodup, hold, hmem_iff ?_⟩
    rintro ⟨⟨htm, -⟩, hsl⟩
    exact ht (touched_wipe_iff.2 ⟨htm, hsl⟩)

theorem Walked.run : ∀ (l' : List am.Shadow) {l pages : List am.Shadow} {st : Sender},
    Walked wid iter m o l pages st →
      ∃ pages', Walked wid iter m o (l ++ l') pages' (forwardShadows wid iter l' st)
  | [], l, pages, st, h => ⟨pages, by simpa [forwardShadows] using h⟩
  | s :: l', l, pages, st, h => by
    obtain ⟨pages', h'⟩ := h.step s
    obtain ⟨pages'', h''⟩ := Walked.run l' h'
    exact ⟨pages'', by simpa [forwardShadows] using h''⟩

/-- What the three loops do: one walk over all the pages. -/
theorem forwardPages_walked (wid : Wid) (iter : ℕ)
    (shadowGlobals shadowStacks shadowHeaps : List am.Shadow)
    (s : Sender) : ∃ pages st,
      Walked wid iter s.mem s.out (shadowGlobals ++ shadowStacks ++ shadowHeaps) pages st ∧
      forwardPages wid iter shadowGlobals shadowStacks shadowHeaps s =
        { st with out := forwardRoPage wid iter st.out } := by
  obtain ⟨_, h⟩ := Walked.run shadowGlobals (Walked.nil wid iter s.mem s.out)
  obtain ⟨_, h⟩ := Walked.run shadowStacks h
  obtain ⟨pages, h⟩ := Walked.run shadowHeaps h
  exact ⟨pages, _, h, rfl⟩

/-- **Every page that needs it is forwarded once.**  Some pages, each once and
    in the order of the containers, are passed on: those with the touched bit
    and more metadata.  A page is passed on by the calls for its parcel, or by
    an entry of the read-only buffer, of which nothing is left waiting.  The
    touched pages are zeroed and all other pages keep their bytes. -/
theorem forwardPages_once (wid : Wid) (iter : ℕ)
    (shadowGlobals shadowStacks shadowHeaps : List am.Shadow) (s : Sender) :
    let shadows := shadowGlobals ++ shadowStacks ++ shadowHeaps
    let s' := forwardPages wid iter shadowGlobals shadowStacks shadowHeaps s
    (∃ pages : List am.Shadow, pages.Nodup ∧ pages.Sublist shadows ∧
      (∀ t, t ∈ pages ↔ t ∈ shadows ∧ Marked s.mem t) ∧
      directCalls s'.out.log = directCalls s.out.log ++ pageCalls wid iter s.mem pages ∧
      ∀ xs, s.out.roPageBuffer.Pending xs →
        Sends iter s.out s'.out xs (pageEntries s.mem pages) []) ∧
    (∀ t ∈ shadows, touched s.mem t.1.addr → isZeroPage s'.mem t.1.addr) ∧
    (∀ t : am.Shadow, ¬ touched s.mem t.1.addr → AgreeOn s'.mem s.mem t.1.addr) ∧
    (∀ t : am.Shadow, t ∉ shadows → AgreeOn s'.mem s.mem t.1.addr) ∧
    (∀ p : Page, ¬ am.IsShadow p → AgreeOn s'.mem s.mem p.addr) := by
  intro shadows s'
  obtain ⟨pages, st, h, hs'⟩ :=
    forwardPages_walked wid iter shadowGlobals shadowStacks shadowHeaps s
  have hmem : s'.mem = wipe s.mem shadows := (congrArg Sender.mem hs').trans h.mem
  have hout : s'.out = forwardRoPage wid iter (sendParcels wid iter s.mem pages s.out) :=
    (congrArg Sender.out hs').trans (congrArg (forwardRoPage wid iter) h.out)
  rw [hmem, hout]
  refine ⟨⟨pages, h.nodup, h.sublist, h.mem_iff, ?_, ?_⟩, ?_, ?_, ?_, ?_⟩
  · rw [forwardRoPage_direct, sendParcels_direct]
  · intro xs hxs
    obtain ⟨ys, hys⟩ := sendParcels_sends wid iter s.mem pages hxs
    have hall := hys.trans (forwardRoPage_sends wid iter hys.pending)
    rwa [List.append_nil] at hall
  · intro t ht htt
    rw [isZeroPage_iff]
    intro j hj
    exact wipe_of_touched ht htt hj
  · intro t ht
    refine wipe_of_not_mem ?_
    intro u _ hu hut
    obtain rfl := Subtype.ext hut
    exact ht hu
  · intro t ht
    refine wipe_of_not_mem ?_
    intro u hu _ hut
    obtain rfl := Subtype.ext hut
    exact ht hu
  · intro p hp
    refine wipe_of_not_mem ?_
    rintro u _ _ rfl
    exact hp u.2

/-! ## The whole of `end_iter` -/

/-- The memory that the loops of `end_iter` start with. -/
def Runtime.updateShadow (rt : Runtime) (m : Memory) : Memory :=
  rt.updateShadowForLinearPredictedValues (rt.updateShadowForLoopInvariants m)

/-- The shadow pages that `end_iter` walks over. -/
def Worker.shadows (w : Worker am) : List am.Shadow :=
  w.shadowGlobals ++ w.shadowStacks ++ w.shadowHeaps

/-- The call for the allocations that are not broadcast yet. -/
def Worker.mallocCall (wid : Wid) (w : Worker am) : Call :=
  .broadcastMallocChunk wid w.verMallocBuffer.elem
    (w.verMallocBuffer.index * sizeofVerMallocInstance)

def eoiCall (wid : Wid) : Call := .broadcastEoi wid 0xDEADBEEF 0 0

/-- The owner of an iteration broadcasts its allocations, walks over the
    shadow pages and flushes the read-only buffer. -/
theorem endIter_owned {rt : Runtime} {w : Worker am}
    (hrun : runIteration rt.layout wid w.currentIter) : ∃ pages st,
      Walked wid w.currentIter (rt.updateShadow w.mem) (w.out.call (w.mallocCall wid)) w.shadows
        pages st ∧
      (endIter rt wid w).out =
        if eoiTest rt.layout wid w.currentIter then
          (forwardRoPage wid w.currentIter st.out).call (eoiCall wid)
        else forwardRoPage wid w.currentIter st.out := by
  obtain ⟨pages, st, h, heq⟩ := forwardPages_walked wid w.currentIter w.shadowGlobals
    w.shadowStacks w.shadowHeaps ⟨rt.updateShadow w.mem, w.out.call (w.mallocCall wid)⟩
  refine ⟨pages, st, h, ?_⟩
  have hout := congrArg Sender.out heq
  dsimp only at hout
  rw [← hout]
  simp only [endIter, hrun, if_true]
  split_ifs <;> rfl

/-! ## Reachable workers -/

/-- The states of a worker: the program starts with an empty read-only buffer,
    and only `end_iter` uses it. -/
inductive Worker.Reachable (rt : Runtime) (wid : Wid) : Worker am → Prop
  | start (w : Worker am) (h : w.out.roPageBuffer = .init) : Reachable rt wid w
  | body (w w' : Worker am) (hr : Reachable rt wid w)
      (h : w'.out.roPageBuffer = w.out.roPageBuffer) : Reachable rt wid w'
  | endIter (w : Worker am) (hr : Reachable rt wid w) : Reachable rt wid (endIter rt wid w)

theorem Sends.malloc (wid : Wid) (iter : ℕ) {w : Worker am} {xs : List ℕ}
    (h : w.out.roPageBuffer.Pending xs) :
    Sends iter w.out (w.out.call (w.mallocCall wid)) xs [] xs :=
  .of_direct h rfl

theorem Sends.eoi (wid : Wid) {xs : List ℕ} (h : o.roPageBuffer.Pending xs) :
    Sends iter o (o.call (eoiCall wid)) xs [] xs :=
  .of_direct h rfl

/-- What the owner of an iteration sends in read-only chunks: the pages that
    were read at most, and what was waiting. -/
theorem endIter_sends {rt : Runtime} {w : Worker am} {xs : List ℕ}
    (h : w.out.roPageBuffer.Pending xs) (hrun : runIteration rt.layout wid w.currentIter) :
    ∃ pages, (∀ s, s ∈ pages ↔ s ∈ w.shadows ∧ Marked (rt.updateShadow w.mem) s) ∧
      Sends w.currentIter w.out (endIter rt wid w).out xs
        (pageEntries (rt.updateShadow w.mem) pages) [] := by
  obtain ⟨pages, st, hw, hout⟩ := endIter_owned hrun
  have hm := Sends.malloc wid w.currentIter h
  obtain ⟨ys, hp⟩ :=
    sendParcels_sends wid w.currentIter (rt.updateShadow w.mem) pages hm.pending
  have hf := forwardRoPage_sends wid w.currentIter hp.pending
  have hall := (hm.trans hp).trans hf
  rw [List.nil_append, List.append_nil, ← hw.out] at hall
  refine ⟨pages, hw.mem_iff, ?_⟩
  rw [hout]
  split_ifs
  · have := hall.trans (Sends.eoi wid hall.pending)
    rwa [List.append_nil] at this
  · exact hall

/-- Between the iterations nothing waits in the read-only buffer. -/
theorem Worker.Reachable.pending {rt : Runtime} {w : Worker am} (h : w.Reachable rt wid) :
    w.out.roPageBuffer.Pending [] := by
  induction h with
  | start w h =>
    rw [h]
    exact pending_init
  | body w w' _ h ih => rwa [h]
  | endIter w _ ih =>
    by_cases hrun : runIteration rt.layout wid w.currentIter
    · obtain ⟨_, -, hs⟩ := endIter_sends ih hrun
      exact hs.pending
    · have hbuf : (SpecPriv.endIter rt wid w).out.roPageBuffer = w.out.roPageBuffer := by
        simp only [SpecPriv.endIter, if_neg hrun]
        split_ifs <;> rfl
      rwa [hbuf]

end SpecPriv
