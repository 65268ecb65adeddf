/-
  The walk of `end_iter` in closed form, and what it does not depend on.

  `markedPages m l` lists the pages that the walk over `l` forwards, in the
  order in which it does; `forwardPages_eq` and `endIter_eq` say what the walk
  leaves with it.

  The body of the loop leaves metadata in pages that it touched only
  (`Worker.Tracked`), so after an iteration of its own a worker has no metadata
  in the pages of its lists.  `forget_history`: what an iteration sends depends
  on what the iteration did, on whatever state the iterations before it left
  the worker, except for the cut of the read-only pages into chunks.
-/
import SpecPriv.Orig.EndIter

namespace SpecPriv

variable {am : AddressMap}

/-- The pages that are forwarded for the first time, after the pages `seen`. -/
def newMarked (m : Memory) (seen : List am.Shadow) : List am.Shadow → List am.Shadow
  | [] => []
  | s :: l =>
    if Marked m s ∧ s ∉ seen then s :: newMarked m (seen ++ [s]) l
    else newMarked m (seen ++ [s]) l

def markedPages (m : Memory) (l : List am.Shadow) : List am.Shadow := newMarked m [] l

/-- The page is touched, or has no metadata. -/
def TrackedPage (m : Memory) (s : am.Shadow) : Prop := touched m s.1.addr ∨ isZeroPage m s.1.addr

/-- There is metadata in touched pages only. -/
def Worker.Tracked (w : Worker am) : Prop := ∀ s ∈ w.shadows, TrackedPage w.mem s

/-- The memories agree on some pages and their shadows. -/
def AgreeOnPages (l : List am.Shadow) (m m' : Memory) : Prop :=
  ∀ s ∈ l, AgreeOn m m' (am.getOriginalOf s).addr ∧ AgreeOn m m' s.1.addr

/-- What the function does to some pages and their shadows depends on them
    only. -/
def LocalTo (l : List am.Shadow) (f : Memory → Memory) : Prop :=
  ∀ m m', AgreeOnPages l m m' → AgreeOnPages l (f m) (f m')

/-- The updates of the metadata of predicted values touch the pages in which
    they leave metadata. -/
def Runtime.KeepsTracked (rt : Runtime) (am : AddressMap) : Prop :=
  ∀ m (s : am.Shadow), TrackedPage m s → TrackedPage (rt.updateShadow m) s

/-- The iteration that the worker is in is its own. -/
def Worker.Owns (rt : Runtime) (wid : Wid) (w : Worker am) : Prop :=
  runIteration rt.layout wid w.currentIter ∧ eoiTest rt.layout wid w.currentIter

variable {wid : Wid} {iter : ℕ} {m m' : Memory} {l l' seen : List am.Shadow} {s : am.Shadow}
  {o : Outbox} {rt : Runtime} {w w' : Worker am}

/-! ## The walk -/

/-- A page that is still touched is as it was before the walk. -/
theorem wipe_agree (h : touched (wipe m seen) s.1.addr) : AgreeOn (wipe m seen) m s.1.addr := by
  refine wipe_of_not_mem ?_
  intro t ht _ hts
  obtain rfl := Subtype.ext hts
  exact (touched_wipe_iff.1 h).2 ht

/-- One page of the walk. -/
theorem forwardShadow_walk (wid : Wid) (iter : ℕ) (m : Memory) (seen : List am.Shadow)
    (s : am.Shadow) (o : Outbox) : forwardShadow wid iter ⟨wipe m seen, o⟩ s =
      ⟨wipe m (seen ++ [s]),
        if Marked m s ∧ s ∉ seen then (parcelOf m s).send wid iter .required o else o⟩ := by
  rw [forwardShadow_eq]
  by_cases ht : touched (wipe m seen) s.1.addr
  · obtain ⟨htm, hs⟩ := touched_wipe_iff.1 ht
    have hagree := wipe_agree ht
    have horig : AgreeOn (wipe m seen) m (am.getOriginalOf s).addr := by
      refine wipe_of_not_mem ?_
      intro t _ _
      exact (original_ne s t).symm
    simp only [if_pos ht]
    rw [hagree.clearTouched_self.isZeroPage, parcelOf_congr hagree horig,
      ← wipe_append_of_touched htm]
    by_cases hz : isZeroPage (clearTouched m s.1.addr) s.1.addr
    · have hnot : ¬ (Marked m s ∧ s ∉ seen) := fun h => h.1.2 hz
      rw [if_pos hz, if_neg hnot]
    · rw [if_neg hz, if_pos ⟨⟨htm, hz⟩, hs⟩]
  · have hnot : ¬ (Marked m s ∧ s ∉ seen) := fun h => ht (touched_wipe_iff.2 ⟨h.1.1, h.2⟩)
    rw [if_neg ht, if_neg hnot, wipe_append_of_not_touched ht]

theorem forwardShadows_walk (wid : Wid) (iter : ℕ) (m : Memory) :
    ∀ (l seen : List am.Shadow) (o : Outbox), forwardShadows wid iter l ⟨wipe m seen, o⟩ =
      ⟨wipe m (seen ++ l), sendParcels wid iter m (newMarked m seen l) o⟩
  | [], seen, o => by simp [forwardShadows, newMarked, sendParcels]
  | s :: l, seen, o => by
    have hrest := forwardShadows_walk wid iter m l (seen ++ [s])
    unfold forwardShadows at hrest ⊢
    rw [List.foldl_cons, forwardShadow_walk, hrest, List.append_assoc, newMarked]
    by_cases h : Marked m s ∧ s ∉ seen
    · rw [if_pos h, if_pos h, sendParcels_cons]
      rfl
    · rw [if_neg h, if_neg h]
      rfl

theorem newMarked_append (m : Memory) : ∀ l seen l' : List am.Shadow,
    newMarked m seen (l ++ l') = newMarked m seen l ++ newMarked m (seen ++ l) l'
  | [], seen, l' => by simp [newMarked]
  | s :: l, seen, l' => by
    have hrest := newMarked_append m l (seen ++ [s]) l'
    rw [List.cons_append, newMarked, newMarked, hrest]
    split_ifs <;> simp

theorem wipe_nil : wipe m ([] : List am.Shadow) = m := by
  funext x
  simp [wipe]

/-- **What the three loops do**, in closed form. -/
theorem forwardPages_eq (wid : Wid) (iter : ℕ)
    (shadowGlobals shadowStacks shadowHeaps : List am.Shadow) (m : Memory) (o : Outbox) :
    forwardPages wid iter shadowGlobals shadowStacks shadowHeaps ⟨m, o⟩ =
      ⟨wipe m (shadowGlobals ++ shadowStacks ++ shadowHeaps), forwardRoPage wid iter
        (sendParcels wid iter m (markedPages m (shadowGlobals ++ shadowStacks ++ shadowHeaps))
          o)⟩ := by
  have hsend : ∀ ps qs : List am.Shadow, sendParcels wid iter m qs (sendParcels wid iter m ps o) =
      sendParcels wid iter m (ps ++ qs) o := by
    intro ps qs
    unfold sendParcels
    rw [List.foldl_append]
  have hstart : (⟨m, o⟩ : Sender) = ⟨wipe m ([] : List am.Shadow), o⟩ := by rw [wipe_nil]
  rw [hstart]
  simp only [forwardPages, forwardShadows_walk, hsend, markedPages, newMarked_append,
    List.nil_append]

/-- What `end_iter` leaves in an iteration of the worker. -/
theorem endIter_eq (hrun : runIteration rt.layout wid w.currentIter) :
    (endIter rt wid w).mem = wipe (rt.updateShadow w.mem) w.shadows ∧
    (endIter rt wid w).out =
      let o := forwardRoPage wid w.currentIter
        (sendParcels wid w.currentIter (rt.updateShadow w.mem)
          (markedPages (rt.updateShadow w.mem) w.shadows) (w.out.call (w.mallocCall wid)))
      if eoiTest rt.layout wid w.currentIter then o.call (eoiCall wid) else o := by
  have hpages := forwardPages_eq wid w.currentIter w.shadowGlobals w.shadowStacks w.shadowHeaps
    (rt.updateShadow w.mem) (w.out.call (w.mallocCall wid))
  have hmem := congrArg Sender.mem hpages
  have hout := congrArg Sender.out hpages
  simp only [endIter, hrun, if_true]
  split_ifs
  · exact ⟨hmem, congrArg (fun o => Outbox.call o (eoiCall wid)) hout⟩
  · exact ⟨hmem, hout⟩

/-! ## What it depends on -/

theorem AgreeOn.marked (h : AgreeOn m m' s.1.addr) : Marked m s ↔ Marked m' s := by
  unfold Marked
  rw [h.touched, h.clearTouched_self.isZeroPage]

theorem newMarked_congr : ∀ {l seen : List am.Shadow}, AgreeOnPages l m m' →
    newMarked m seen l = newMarked m' seen l
  | [], _, _ => rfl
  | s :: l, seen, h => by
    have hrest : AgreeOnPages l m m' := by
      intro t ht
      exact h t (List.mem_cons_of_mem s ht)
    rw [newMarked, newMarked, newMarked_congr hrest]
    exact if_congr (and_congr_left' (h s List.mem_cons_self).2.marked) rfl rfl

theorem mem_of_mem_newMarked : ∀ {l seen : List am.Shadow}, s ∈ newMarked m seen l → s ∈ l
  | t :: l, seen, h => by
    rw [newMarked] at h
    split_ifs at h
    · rcases List.mem_cons.1 h with rfl | h
      · exact List.mem_cons_self
      · exact List.mem_cons_of_mem t (mem_of_mem_newMarked h)
    · exact List.mem_cons_of_mem t (mem_of_mem_newMarked h)

theorem AgreeOnPages.parcelOf (h : AgreeOnPages l m m') (hs : s ∈ l) :
    parcelOf m s = parcelOf m' s :=
  parcelOf_congr (h s hs).2 (h s hs).1

/-- The calls for the pages that are forwarded. -/
theorem AgreeOnPages.pageCalls (h : AgreeOnPages l m m') :
    pageCalls wid iter m (markedPages m l) = pageCalls wid iter m' (markedPages m' l) := by
  unfold SpecPriv.pageCalls markedPages
  rw [newMarked_congr h]
  refine List.flatMap_congr ?_
  intro s hs
  rw [h.parcelOf (mem_of_mem_newMarked hs)]

theorem AgreeOnPages.pageEntries (h : AgreeOnPages l m m') :
    pageEntries m (markedPages m l) = pageEntries m' (markedPages m' l) := by
  unfold SpecPriv.pageEntries markedPages
  rw [newMarked_congr h]
  refine List.flatMap_congr ?_
  intro s hs
  rw [h.parcelOf (mem_of_mem_newMarked hs)]

/-- The calls that an iteration of the worker makes besides those for the
    read-only buffer. -/
theorem endIter_direct (hrun : runIteration rt.layout wid w.currentIter)
    (heoi : eoiTest rt.layout wid w.currentIter) :
    directCalls (endIter rt wid w).out.log = directCalls w.out.log ++
      ([w.mallocCall wid] ++ pageCalls wid w.currentIter (rt.updateShadow w.mem)
        (markedPages (rt.updateShadow w.mem) w.shadows) ++ [eoiCall wid]) := by
  rw [(endIter_eq hrun).2]
  dsimp only
  rw [if_pos heoi, Outbox.call, directCalls_append, forwardRoPage_direct, sendParcels_direct,
    Outbox.call, directCalls_append]
  simp [directCalls, Worker.mallocCall, eoiCall]

/-- The read-only pages that it sends. -/
theorem endIter_roEntries (hpending : w.out.roPageBuffer.Pending [])
    (hrun : runIteration rt.layout wid w.currentIter) :
    Sends w.currentIter w.out (endIter rt wid w).out []
      (pageEntries (rt.updateShadow w.mem) (markedPages (rt.updateShadow w.mem) w.shadows)) [] := by
  have hm := Sends.malloc wid w.currentIter hpending
  obtain ⟨ys, hp⟩ := sendParcels_sends wid w.currentIter (rt.updateShadow w.mem)
    (markedPages (rt.updateShadow w.mem) w.shadows) hm.pending
  have hf := forwardRoPage_sends wid w.currentIter hp.pending
  have hall := (hm.trans hp).trans hf
  have heoi := hall.trans (Sends.eoi wid hf.pending)
  rw [(endIter_eq hrun).2]
  dsimp only
  split_ifs
  · simpa using heoi
  · simpa using hall

/-! ## Runs -/

/-- The states of a worker whose body leaves metadata in touched pages only. -/
inductive Worker.Runs (rt : Runtime) (wid : Wid) : Worker am → Prop
  | start (w : Worker am) (hbuf : w.out.roPageBuffer = .init) (h : w.Tracked) : Runs rt wid w
  | body (w w' : Worker am) (hw : Runs rt wid w)
      (hbuf : w'.out.roPageBuffer = w.out.roPageBuffer) (h : w'.Tracked) : Runs rt wid w'
  | endIter (w : Worker am) (hw : Runs rt wid w) : Runs rt wid (endIter rt wid w)

theorem Worker.Runs.reachable (h : w.Runs rt wid) : w.Reachable rt wid := by
  induction h with
  | start w hbuf => exact .start w hbuf
  | body w w' _ hbuf _ ih => exact .body w w' ih hbuf
  | endIter w _ ih => exact .endIter w ih

theorem endIter_shadows : (endIter rt wid w).shadows = w.shadows := by
  by_cases hrun : runIteration rt.layout wid w.currentIter <;>
    by_cases heoi : eoiTest rt.layout wid w.currentIter <;>
    simp [endIter, hrun, heoi, Worker.shadows]

/-- The walk leaves the pages that it walks over without metadata. -/
theorem wipe_zero (h : ∀ s ∈ l, TrackedPage m s) (hs : s ∈ l) : isZeroPage (wipe m l) s.1.addr := by
  rw [isZeroPage_iff]
  intro j hj
  by_cases ht : touched m s.1.addr
  · exact wipe_of_touched hs ht hj
  · have hz : isZeroPage m s.1.addr := (h s hs).resolve_left ht
    have hagree : AgreeOn (wipe m l) m s.1.addr := by
      refine wipe_of_not_mem ?_
      intro t _ htt hts
      obtain rfl := Subtype.ext hts
      exact ht htt
    rw [hagree j hj]
    exact isZeroPage_iff.1 hz j hj

/-- An iteration of its own leaves a worker without metadata. -/
theorem Worker.Tracked.endIter_zero (hrt : rt.KeepsTracked am) (h : w.Tracked)
    (hown : w.Owns rt wid) :
    ∀ s ∈ w.shadows, isZeroPage (SpecPriv.endIter rt wid w).mem s.1.addr := by
  intro s hs
  rw [(endIter_eq hown.1).1]
  exact wipe_zero (fun t ht => hrt _ t (h t ht)) hs

theorem Worker.Tracked.endIter (hrt : rt.KeepsTracked am) (h : w.Tracked) :
    (SpecPriv.endIter rt wid w).Tracked := by
  intro s hs
  rw [endIter_shadows] at hs
  by_cases hrun : runIteration rt.layout wid w.currentIter
  · rw [(endIter_eq hrun).1]
    exact Or.inr (wipe_zero (fun t ht => hrt _ t (h t ht)) hs)
  · have hmem : (SpecPriv.endIter rt wid w).mem = w.mem := by
      simp only [SpecPriv.endIter, if_neg hrun]
      split_ifs <;> rfl
    rw [hmem]
    exact h s hs

theorem Worker.Runs.tracked (hrt : rt.KeepsTracked am) (h : w.Runs rt wid) : w.Tracked := by
  induction h with
  | start w _ h => exact h
  | body w w' _ _ h _ => exact h
  | endIter w _ ih => exact ih.endIter hrt

/-- What a worker of its own iteration sends, in terms of the memory that the
    walk starts with. -/
theorem endIter_sent (h : w.out.roPageBuffer.Pending []) (hown : w.Owns rt wid) :
    directCalls (endIter rt wid w).out.log = directCalls w.out.log ++
      ([w.mallocCall wid] ++ pageCalls wid w.currentIter (rt.updateShadow w.mem)
        (markedPages (rt.updateShadow w.mem) w.shadows) ++ [eoiCall wid]) ∧
    entriesUnder w.currentIter (endIter rt wid w).out.log = entriesUnder w.currentIter w.out.log ++
      pageEntries (rt.updateShadow w.mem) (markedPages (rt.updateShadow w.mem) w.shadows) := by
  refine ⟨endIter_direct hown.1 hown.2, ?_⟩
  obtain ⟨-, cs, hlog, hentries, -⟩ := endIter_roEntries h hown.1
  rw [hlog, entriesUnder_append]
  simpa using hentries

/-- **Iterations do not see each other's metadata.**  Take two workers at the
    ends of iterations of their own, after runs of any length, that keep the
    same pages with the same data, and let the same body run in an iteration of
    their own: they make the same calls for it, besides those that send a chunk
    of the read-only buffer, and those send the same pages.  Assumed of the
    functions outside: they leave metadata on touched pages only, and what the
    body and the update of the shadows do to the pages depends on these alone. -/
theorem forget_history {u u' : Worker am} (hrt : rt.KeepsTracked am)
    (hu : u.Runs rt wid) (hu' : u'.Runs rt wid) (hown : u.Owns rt wid) (hown' : u'.Owns rt wid)
    (hshadows : u.shadows = u'.shadows)
    (hdata : ∀ s ∈ u.shadows, AgreeOn (endIter rt wid u).mem (endIter rt wid u').mem
      (am.getOriginalOf s).addr)
    (body : Memory → Memory) (hbody : LocalTo u.shadows body)
    (hupdate : LocalTo u.shadows rt.updateShadow) (buf : VerMallocBuffer)
    (hiter : runIteration rt.layout wid iter ∧ eoiTest rt.layout wid iter) :
    let v := { endIter rt wid u with
      mem := body (endIter rt wid u).mem, verMallocBuffer := buf, currentIter := iter }
    let v' := { endIter rt wid u' with
      mem := body (endIter rt wid u').mem, verMallocBuffer := buf, currentIter := iter }
    ∃ cs es,
      (directCalls (endIter rt wid v).out.log = directCalls v.out.log ++ cs ∧
        entriesUnder iter (endIter rt wid v).out.log = entriesUnder iter v.out.log ++ es) ∧
      (directCalls (endIter rt wid v').out.log = directCalls v'.out.log ++ cs ∧
        entriesUnder iter (endIter rt wid v').out.log = entriesUnder iter v'.out.log ++ es) := by
  intro v v'
  have hzero := (hu.tracked hrt).endIter_zero hrt hown
  have hzero' := (hu'.tracked hrt).endIter_zero hrt hown'
  have hstart : AgreeOnPages u.shadows (endIter rt wid u).mem (endIter rt wid u').mem := by
    intro s hs
    refine ⟨hdata s hs, ?_⟩
    intro j hj
    have hz := isZeroPage_iff.1 (hzero s hs) j hj
    have hz' := isZeroPage_iff.1 (hzero' s (hshadows ▸ hs)) j hj
    rw [hz, hz']
  have hagree := hupdate _ _ (hbody _ _ hstart)
  have hpending : v.out.roPageBuffer.Pending [] := (hu.reachable.endIter u).pending
  have hpending' : v'.out.roPageBuffer.Pending [] := (hu'.reachable.endIter u').pending
  have hv : v.shadows = u.shadows := endIter_shadows
  have hv' : v'.shadows = u.shadows := endIter_shadows.trans hshadows.symm
  obtain ⟨hcalls, hentries⟩ := endIter_sent hpending hiter
  obtain ⟨hcalls', hentries'⟩ := endIter_sent hpending' hiter
  rw [hv] at hcalls hentries
  rw [hv', ← hagree.pageCalls] at hcalls'
  rw [hv', ← hagree.pageEntries] at hentries'
  exact ⟨_, _, ⟨hcalls, hentries⟩, hcalls', hentries'⟩

/-- A worker that walks over some globals only, in iteration `6`. -/
def Worker.fresh (m : Memory) (l : List am.Shadow) : Worker am :=
  ⟨⟨m, .init⟩, l, [], [], ⟨fun _ => ⟨0, 0, 0⟩, 0⟩, 6⟩

/-- Mark the first byte of the page of `onePage` as written. -/
def markOnePage (m : Memory) : Memory := Function.update m onePage.1.addr 0x82#8

theorem markOnePage_local : LocalTo [onePage] markOnePage := by
  intro m m' h s hs
  obtain ⟨hdata, hshadow⟩ := h s hs
  refine ⟨?_, ?_⟩
  · intro j hj
    unfold markOnePage
    rw [Function.update_apply, Function.update_apply, hdata j hj]
  · intro j hj
    unfold markOnePage
    rw [Function.update_apply, Function.update_apply, hshadow j hj]

/-- A worker whose iteration marked the whole page, and one whose iteration
    marked nothing. -/
theorem forget_history_onePage :
    let rt : Runtime := ⟨.oneThenTwo, id, id⟩
    let u := Worker.fresh (fun x => if x < 2 ^ 46 then 0#8 else 0x82#8) [onePage]
    let u' := Worker.fresh (fun _ => 0#8) [onePage]
    let v := { endIter rt 1 u with
      mem := markOnePage (endIter rt 1 u).mem
      verMallocBuffer := ⟨fun _ => ⟨0, 0, 0⟩, 0⟩
      currentIter := 8 }
    let v' := { endIter rt 1 u' with
      mem := markOnePage (endIter rt 1 u').mem
      verMallocBuffer := ⟨fun _ => ⟨0, 0, 0⟩, 0⟩
      currentIter := 8 }
    ∃ cs es,
      (directCalls (endIter rt 1 v).out.log = directCalls v.out.log ++ cs ∧
        entriesUnder 8 (endIter rt 1 v).out.log = entriesUnder 8 v.out.log ++ es) ∧
      (directCalls (endIter rt 1 v').out.log = directCalls v'.out.log ++ cs ∧
        entriesUnder 8 (endIter rt 1 v').out.log = entriesUnder 8 v'.out.log ++ es) := by
  intro rt u u' v v'
  have hown : ∀ m, (Worker.fresh m [onePage]).Owns rt 1 := by
    intro m
    exact ⟨show runIteration StageLayout.oneThenTwo 1 6 by decide,
      show eoiTest StageLayout.oneThenTwo 1 6 by decide⟩
  have hrt : rt.KeepsTracked .shifted := fun _ _ h => h
  have htracked : u.Tracked := by
    intro s hs
    obtain rfl : s = onePage := by simpa [u, Worker.fresh, Worker.shadows] using hs
    exact Or.inl (by decide)
  have htracked' : u'.Tracked := fun s _ => Or.inr (isZeroPage_iff.2 fun _ _ => rfl)
  have horig : ∀ m : Memory, (∀ x < 2 ^ 46, m x = 0#8) → ∀ j < pageSize,
      (endIter rt 1 (Worker.fresh m [onePage])).mem
        ((AddressMap.shifted.getOriginalOf onePage).addr + j) = 0#8 := by
    intro m hm j hj
    rw [(endIter_eq (hown m).1).1]
    have hagree : AgreeOn (wipe m [onePage]) m (AddressMap.shifted.getOriginalOf onePage).addr := by
      refine wipe_of_not_mem ?_
      intro t _ _
      exact (original_ne onePage t).symm
    refine (hagree j hj).trans (hm _ ?_)
    have haddr : (AddressMap.shifted.getOriginalOf onePage).addr = pageSize := rfl
    have hsize : pageSize = 4096 := rfl
    omega
  refine forget_history hrt (.start u rfl htracked) (.start u' rfl htracked')
    (hown _) (hown _) rfl ?_ markOnePage markOnePage_local (fun _ _ h => h) _
    ⟨by decide, by decide⟩
  intro s hs j hj
  obtain rfl : s = onePage := by simpa [u, Worker.fresh, Worker.shadows] using hs
  rw [horig _ (fun x hx => if_pos hx) j hj, horig _ (fun _ _ => rfl) j hj]

end SpecPriv
