/-
  Regions of heaps.

  A region is a set of heaps, each a range of pages; a versioned region has a
  range for every worker.  `forward_region` passes on the touched pages of a
  region as the walk of `end_iter` does, but without the test for metadata;
  `check_region_nrbw` tests each touched page first, and reports a
  misspeculation at a page with bit 0 set.  (The calls of the four functions in
  `end_iter` are disabled.)

  `PREFIX(misspec)` is not part of the source: it is a parameter, a function
  that may stop the worker.

  * `forwardRegion_walk`: what a region leaves and sends is what the walk of
    `end_iter` over the same pages does, and in addition the touched pages
    without metadata are entered in the read-only buffer;
  * `checkRegionNrbw_stops`: the checked functions are the unchecked ones if no
    touched page has bit 0 set, and otherwise report the first page that has,
    with the pages before it forwarded.
-/
import SpecPriv.Lib.Stopping
import SpecPriv.Orig.Scans
import SpecPriv.Orig.Walk

namespace SpecPriv

open Loop

/-- Where the heaps lie, and the shadows of their pages. -/
structure Heaps (am : AddressMap) where
  heapBegin : ℕ → ℕ
  heapBound : ℕ → ℕ
  versionedHeapBegin : ℕ → ℕ → ℕ
  versionedHeapBound : ℕ → ℕ → ℕ
  maxWorkers : ℕ
  getShadowOf : ℕ → am.Shadow
  original : ∀ i, ∀ a ∈ loopValues (heapBegin i) (heapBound i) pageSize,
    (am.getOriginalOf (getShadowOf a)).addr = a
  versionedOriginal : ∀ i j,
    ∀ a ∈ loopValues (versionedHeapBegin j i) (versionedHeapBound j i) pageSize,
    (am.getOriginalOf (getShadowOf a)).addr = a

/-- A pointer to a set of heaps, in the order of the set. -/
abbrev Region := Option (List ℕ)

namespace Heaps

variable {am : AddressMap} (hs : Heaps am)

/-- The body of the loops that forward, for the page at `a`. -/
def forwardHeapPage (wid : Wid) (iter : ℕ) (check : Check) (a : ℕ) (s : Sender) : Sender :=
  let shadow := (hs.getShadowOf a).1.addr
  if touched s.mem shadow then
    let r := clearRead shadow (clearTouched s.mem shadow)
    forwardPair r.2 wid iter a shadow check { s with mem := r.1 }
  else s

/-- The body of the loops that check. -/
def checkHeapPage (misspec : Sender → Except Sender Sender) (wid : Wid) (iter : ℕ) (a : ℕ)
    (s : Sender) : Except Sender Sender :=
  let shadow := (hs.getShadowOf a).1.addr
  if touched s.mem shadow then
    let r := clearRead shadow (clearTouched s.mem shadow)
    if checkNrbw shadow r.1 then .ok (forwardPair r.2 wid iter a shadow .free { s with mem := r.1 })
    else misspec { s with mem := r.1 }
  else .ok s

def forwardRegion (region : Region) (wid : Wid) (iter : ℕ) (check : Check) (s : Sender) : Sender :=
  match region with
  | none => s
  | some region => region.foldl (fun s i =>
      forLoop (hs.heapBegin i) (hs.heapBound i) pageSize (hs.forwardHeapPage wid iter check) s) s

def forwardVersionedRegion (region : Region) (wid : Wid) (iter : ℕ) (check : Check) (s : Sender) :
    Sender :=
  match region with
  | none => s
  | some region => region.foldl (fun s i =>
      forLoop 0 hs.maxWorkers 1 (fun j s =>
        forLoop (hs.versionedHeapBegin j i) (hs.versionedHeapBound j i) pageSize
          (hs.forwardHeapPage wid iter check) s) s) s

def checkRegionNrbw (misspec : Sender → Except Sender Sender) (region : Region) (wid : Wid)
    (iter : ℕ) (s : Sender) : Except Sender Sender :=
  match region with
  | none => .ok s
  | some region => region.foldlM (fun s i =>
      Stopping.forLoop (hs.heapBegin i) (hs.heapBound i) pageSize
        (hs.checkHeapPage misspec wid iter) s) s

def checkVersionedRegionNrbw (misspec : Sender → Except Sender Sender) (region : Region)
    (wid : Wid) (iter : ℕ) (s : Sender) : Except Sender Sender :=
  match region with
  | none => .ok s
  | some region => region.foldlM (fun s i =>
      Stopping.forLoop 0 hs.maxWorkers 1 (fun j s =>
        Stopping.forLoop (hs.versionedHeapBegin j i) (hs.versionedHeapBound j i) pageSize
          (hs.checkHeapPage misspec wid iter) s) s) s

/-! ## The pages of a region -/

def regionPages (region : Region) : List ℕ :=
  (region.getD []).flatMap fun i => loopValues (hs.heapBegin i) (hs.heapBound i) pageSize

def versionedRegionPages (region : Region) : List ℕ :=
  (region.getD []).flatMap fun i => (loopValues 0 hs.maxWorkers 1).flatMap fun j =>
    loopValues (hs.versionedHeapBegin j i) (hs.versionedHeapBound j i) pageSize

/-- Forward some pages. -/
def forwardHeapPages (wid : Wid) (iter : ℕ) (check : Check) (pages : List ℕ) (s : Sender) :
    Sender :=
  pages.foldl (fun s a => hs.forwardHeapPage wid iter check a s) s

/-- Check some pages, and forward them. -/
def checkHeapPages (misspec : Sender → Except Sender Sender) (wid : Wid) (iter : ℕ)
    (pages : List ℕ) (s : Sender) : Except Sender Sender :=
  pages.foldlM (fun s a => hs.checkHeapPage misspec wid iter a s) s

variable (region : Region) (misspec : Sender → Except Sender Sender) (wid : Wid) (iter : ℕ)
  (check : Check) (s : Sender)

theorem forwardRegion_eq : hs.forwardRegion region wid iter check s =
    hs.forwardHeapPages wid iter check (hs.regionPages region) s := by
  cases region with
  | none => rfl
  | some region =>
    simp only [forwardRegion, forwardHeapPages, regionPages, Option.getD_some, List.foldl_flatMap,
      forLoop_eq_foldl]

theorem forwardVersionedRegion_eq : hs.forwardVersionedRegion region wid iter check s =
    hs.forwardHeapPages wid iter check (hs.versionedRegionPages region) s := by
  cases region with
  | none => rfl
  | some region =>
    simp only [forwardVersionedRegion, forwardHeapPages, versionedRegionPages, Option.getD_some,
      List.foldl_flatMap, forLoop_eq_foldl]

theorem checkRegionNrbw_eq : hs.checkRegionNrbw misspec region wid iter s =
    hs.checkHeapPages misspec wid iter (hs.regionPages region) s := by
  cases region with
  | none => rfl
  | some region =>
    simp only [checkRegionNrbw, checkHeapPages, regionPages, Option.getD_some,
      foldlM_flatMap, Stopping.forLoop_eq_foldlM]

theorem checkVersionedRegionNrbw_eq : hs.checkVersionedRegionNrbw misspec region wid iter s =
    hs.checkHeapPages misspec wid iter (hs.versionedRegionPages region) s := by
  cases region with
  | none => rfl
  | some region =>
    simp only [checkVersionedRegionNrbw, checkHeapPages, versionedRegionPages, Option.getD_some,
      foldlM_flatMap, Stopping.forLoop_eq_foldlM]

end Heaps

variable {am : AddressMap} {m : Memory} {seen l : List am.Shadow} {p t : am.Shadow}
  {wid : Wid} {iter : ℕ} {check : Check}

/-! ## Parcels, one after the other -/

/-- Send some parcels. -/
def sendAll (wid : Wid) (iter : ℕ) (check : Check) (ps : List Parcel) (o : Outbox) : Outbox :=
  ps.foldl (fun o p => p.send wid iter check o) o

theorem sendAll_direct : ∀ (ps : List Parcel) (o : Outbox),
    directCalls (sendAll wid iter check ps o).log =
      directCalls o.log ++ ps.flatMap (·.calls wid iter check)
  | [], o => by simp [sendAll]
  | p :: ps, o => by
    have hrest := sendAll_direct ps (p.send wid iter check o)
    unfold sendAll at hrest ⊢
    rw [List.foldl_cons, hrest, Parcel.send_direct, List.append_assoc, List.flatMap_cons]

theorem sendAll_sends : ∀ {ps : List Parcel} {o : Outbox} {xs : List ℕ},
    o.roPageBuffer.Pending xs → (∀ p ∈ ps, ∀ a ∈ p.entries, a ≠ 0) →
      ∃ xs', Sends iter o (sendAll wid iter check ps o) xs (ps.flatMap (·.entries)) xs'
  | [], o, xs, h, _ => ⟨xs, h, [], by simp [sendAll], by simp, by simp⟩
  | p :: ps, o, xs, h, hne => by
    obtain ⟨ys, hys⟩ := p.send_sends wid h (hne p List.mem_cons_self)
    have hps : ∀ q ∈ ps, ∀ a ∈ q.entries, a ≠ 0 := by
      intro q hq
      exact hne q (List.mem_cons_of_mem p hq)
    obtain ⟨zs, hzs⟩ := sendAll_sends hys.pending hps
    rw [List.flatMap_cons]
    exact ⟨zs, hys.trans hzs⟩

/-! ## Forwarding -/

/-- The pages that are touched, in the order of their first occurrence, after
    the pages `seen`. -/
def newTouched (m : Memory) (seen : List am.Shadow) : List am.Shadow → List am.Shadow
  | [] => []
  | t :: l =>
    if touched m t.1.addr ∧ t ∉ seen then t :: newTouched m (seen ++ [t]) l
    else newTouched m (seen ++ [t]) l

theorem newTouched_nil (m : Memory) (seen : List am.Shadow) : newTouched m seen [] = [] := rfl

theorem newTouched_cons (m : Memory) (seen : List am.Shadow) (t : am.Shadow)
    (l : List am.Shadow) : newTouched m seen (t :: l) =
      if touched m t.1.addr ∧ t ∉ seen then t :: newTouched m (seen ++ [t]) l
      else newTouched m (seen ++ [t]) l := rfl

def touchedPages (m : Memory) (l : List am.Shadow) : List am.Shadow := newTouched m [] l

/-- The walk of `end_iter` forwards those with metadata. -/
theorem newMarked_eq_filter (m : Memory) : ∀ seen l : List am.Shadow,
    newMarked m seen l = (newTouched m seen l).filter (Marked m ·)
  | seen, [] => rfl
  | seen, t :: l => by
    have hrest := newMarked_eq_filter m (seen ++ [t]) l
    rw [newMarked, newTouched_cons, hrest]
    by_cases ht : touched m t.1.addr ∧ t ∉ seen
    · rw [if_pos ht]
      by_cases hm : Marked m t
      · rw [if_pos ⟨hm, ht.2⟩, List.filter_cons_of_pos (by simpa using hm)]
      · rw [if_neg fun h => hm h.1, List.filter_cons_of_neg (by simpa using hm)]
    · rw [if_neg ht, if_neg fun h => ht ⟨h.1.1, h.2⟩]

/-- The parcel of a touched page without metadata is an entry of the read-only
    buffer. -/
theorem parcelOf_of_not_marked (ht : touched m t.1.addr) (hm : ¬ Marked m t) :
    parcelOf m t = .readonly (am.getOriginalOf t).addr := by
  have hz : isZeroPage (clearTouched m t.1.addr) t.1.addr := by
    by_contra hz
    exact hm ⟨ht, hz⟩
  have hro : ReadonlyPage (clearTouched m t.1.addr) t.1.addr := by
    intro j hj
    rw [isZeroPage_iff.1 hz j hj]
    rfl
  rw [parcelOf, parcel, if_pos hro]

theorem mem_newTouched : ∀ {seen l : List am.Shadow}, t ∈ newTouched m seen l →
    touched m t.1.addr
  | seen, u :: l, h => by
    rw [newTouched_cons] at h
    split_ifs at h with hu
    · rcases List.mem_cons.1 h with rfl | h
      · exact hu.1
      · exact mem_newTouched h
    · exact mem_newTouched h

/-- Pages without metadata add no direct calls. -/
theorem touchedCalls_eq (wid : Wid) (iter : ℕ) (check : Check) (m : Memory) (l : List am.Shadow) :
    ((touchedPages m l).map (parcelOf m)).flatMap (·.calls wid iter check) =
      ((markedPages m l).map (parcelOf m)).flatMap (·.calls wid iter check) := by
  have htouched : ∀ t ∈ touchedPages m l, touched m t.1.addr := fun _ => mem_newTouched
  rw [markedPages, newMarked_eq_filter, ← touchedPages]
  revert htouched
  generalize touchedPages m l = ts
  intro htouched
  induction ts with
  | nil => rfl
  | cons t ts ih =>
    have hrest := ih fun u hu => htouched u (List.mem_cons_of_mem t hu)
    by_cases hm : Marked m t
    · rw [List.filter_cons_of_pos (by simpa using hm)]
      simp only [List.map_cons, List.flatMap_cons, hrest]
    · rw [List.filter_cons_of_neg (by simpa using hm), ← hrest, List.map_cons, List.flatMap_cons,
        parcelOf_of_not_marked (htouched t List.mem_cons_self) hm]
      rfl

/-- `clear_read` and `forward_pair` send the parcel of any page. -/
theorem forwardPair_send {mem shadow : ℕ} (s : Sender) :
    forwardPair (clearRead shadow s.mem).2 wid iter mem shadow check s =
      ⟨setZeroPage s.mem shadow, (parcel s.mem mem shadow).send wid iter check s.out⟩ := by
  by_cases hz : isZeroPage s.mem shadow
  · have hro : ReadonlyPage s.mem shadow := by
      intro j hj
      rw [isZeroPage_iff.1 hz j hj]
      rfl
    rw [clearRead_eq, parcel, if_pos hro, if_pos hro]
    rfl
  · exact forwardPair_eq s hz

namespace Heaps

variable {hs : Heaps am} {a : ℕ}

theorem forwardHeapPage_eq (ha : (am.getOriginalOf (hs.getShadowOf a)).addr = a) (s : Sender) :
    hs.forwardHeapPage wid iter check a s =
      if touched s.mem (hs.getShadowOf a).1.addr then
        ⟨setZeroPage s.mem (hs.getShadowOf a).1.addr,
          (parcelOf s.mem (hs.getShadowOf a)).send wid iter check s.out⟩
      else s := by
  have hsend := @forwardPair_send wid iter check a (hs.getShadowOf a).1.addr
    { s with mem := clearTouched s.mem (hs.getShadowOf a).1.addr }
  have hmem : (clearRead (hs.getShadowOf a).1.addr
      (clearTouched s.mem (hs.getShadowOf a).1.addr)).1 =
        clearTouched s.mem (hs.getShadowOf a).1.addr := by
    rw [clearRead_eq]
  unfold forwardHeapPage
  by_cases ht : touched s.mem (hs.getShadowOf a).1.addr
  · simp only [if_pos ht, hmem]
    rw [hsend, setZeroPage_clearTouched, parcelOf, ha]
  · simp only [if_neg ht]

/-- One page of a region. -/
theorem forwardHeapPage_walk (ha : (am.getOriginalOf (hs.getShadowOf a)).addr = a) (m : Memory)
    (seen : List am.Shadow) (o : Outbox) :
    hs.forwardHeapPage wid iter check a ⟨wipe m seen, o⟩ =
      ⟨wipe m (seen ++ [hs.getShadowOf a]),
        if touched m (hs.getShadowOf a).1.addr ∧ hs.getShadowOf a ∉ seen
        then (parcelOf m (hs.getShadowOf a)).send wid iter check o else o⟩ := by
  rw [forwardHeapPage_eq ha]
  by_cases ht : touched (wipe m seen) (hs.getShadowOf a).1.addr
  · have horig : AgreeOn (wipe m seen) m (am.getOriginalOf (hs.getShadowOf a)).addr := by
      refine wipe_of_not_mem ?_
      intro t _ _
      exact (original_ne _ t).symm
    rw [if_pos ht, if_pos (touched_wipe_iff.1 ht), parcelOf_congr (wipe_agree ht) horig,
      wipe_append_of_touched (touched_wipe_iff.1 ht).1]
  · rw [if_neg ht, if_neg (mt touched_wipe_iff.2 ht), wipe_append_of_not_touched ht]

theorem forwardHeapPages_walk (m : Memory) : ∀ (pages : List ℕ) (seen : List am.Shadow)
    (o : Outbox), (∀ a ∈ pages, (am.getOriginalOf (hs.getShadowOf a)).addr = a) →
    hs.forwardHeapPages wid iter check pages ⟨wipe m seen, o⟩ =
      ⟨wipe m (seen ++ pages.map hs.getShadowOf), sendAll wid iter check
        ((newTouched m seen (pages.map hs.getShadowOf)).map (parcelOf m)) o⟩
  | [], seen, o, _ => by simp [forwardHeapPages, newTouched_nil, sendAll]
  | a :: pages, seen, o, h => by
    have hpages : ∀ b ∈ pages, (am.getOriginalOf (hs.getShadowOf b)).addr = b := by
      intro b hb
      exact h b (List.mem_cons_of_mem a hb)
    have hrest := fun o' => forwardHeapPages_walk m pages (seen ++ [hs.getShadowOf a]) o' hpages
    unfold forwardHeapPages at hrest ⊢
    rw [List.foldl_cons, forwardHeapPage_walk (h a List.mem_cons_self), hrest, List.map_cons,
      newTouched_cons, List.append_assoc]
    by_cases ht : touched m (hs.getShadowOf a).1.addr ∧ hs.getShadowOf a ∉ seen
    · rw [if_pos ht, if_pos ht, List.map_cons, sendAll, sendAll, List.foldl_cons,
        List.singleton_append]
    · rw [if_neg ht, if_neg ht, List.singleton_append]

end Heaps

/-- Between `s` and `f` the touched ones among the pages were forwarded with
    `check`; the walk of `end_iter` over them leads to `g`. -/
structure ForwardsAs (wid : Wid) (iter : ℕ) (check : Check) (s f g : Sender)
    (shadows : List am.Shadow) (xs : List ℕ) : Prop where
  mem : f.mem = g.mem
  calls : ∃ ps : List Parcel,
    directCalls f.out.log = directCalls s.out.log ++ ps.flatMap (·.calls wid iter check) ∧
    directCalls g.out.log = directCalls s.out.log ++ ps.flatMap (·.calls wid iter .required)
  entries : ∃ xs', Sends iter s.out f.out xs (pageEntries s.mem (touchedPages s.mem shadows)) xs'
  walkEntries : ∃ xs', Sends iter s.out g.out xs
    (pageEntries s.mem ((touchedPages s.mem shadows).filter (Marked s.mem ·))) xs'

theorem forwardShadows_eq (wid : Wid) (iter : ℕ) (shadows : List am.Shadow) (s : Sender) :
    forwardShadows wid iter shadows s = ⟨wipe s.mem shadows,
      sendParcels wid iter s.mem (markedPages s.mem shadows) s.out⟩ := by
  have h := forwardShadows_walk wid iter s.mem shadows [] s.out
  rw [wipe_nil, List.nil_append] at h
  exact h

theorem Heaps.forwardHeapPages_forwardsAs {hs : Heaps am} {pages : List ℕ} {s : Sender}
    {xs : List ℕ} (h : ∀ a ∈ pages, (am.getOriginalOf (hs.getShadowOf a)).addr = a)
    (hbuf : s.out.roPageBuffer.Pending xs) (wid : Wid) (iter : ℕ) (check : Check) :
    ForwardsAs wid iter check s (hs.forwardHeapPages wid iter check pages s)
      (forwardShadows wid iter (pages.map hs.getShadowOf) s) (pages.map hs.getShadowOf) xs := by
  have hwalk := @forwardHeapPages_walk _ wid iter check hs s.mem pages [] s.out h
  rw [wipe_nil, List.nil_append, ← touchedPages] at hwalk
  have hf : hs.forwardHeapPages wid iter check pages s = _ := hwalk
  rw [hf, forwardShadows_eq]
  refine ⟨rfl, ⟨(markedPages s.mem (pages.map hs.getShadowOf)).map (parcelOf s.mem), ?_, ?_⟩,
    ?_, ?_⟩
  · rw [sendAll_direct, touchedCalls_eq]
  · rw [sendParcels_direct, pageCalls, List.flatMap_map]
  · have hne : ∀ p ∈ (touchedPages s.mem (pages.map hs.getShadowOf)).map (parcelOf s.mem),
        ∀ a ∈ p.entries, a ≠ 0 := by
      intro p hp
      obtain ⟨t, -, rfl⟩ := List.mem_map.1 hp
      exact parcelOf_entries_ne_zero
    obtain ⟨xs', hsends⟩ := @sendAll_sends wid iter check _ _ _ hbuf hne
    rw [List.flatMap_map] at hsends
    exact ⟨xs', hsends⟩
  · have hfilter : (touchedPages s.mem (pages.map hs.getShadowOf)).filter (Marked s.mem ·) =
        markedPages s.mem (pages.map hs.getShadowOf) := (newMarked_eq_filter s.mem [] _).symm
    rw [hfilter]
    exact sendParcels_sends wid iter s.mem _ hbuf

namespace Heaps

variable (hs : Heaps am)

theorem regionPages_original (region : Region) :
    ∀ a ∈ hs.regionPages region, (am.getOriginalOf (hs.getShadowOf a)).addr = a := by
  intro a ha
  obtain ⟨i, -, ha⟩ := List.mem_flatMap.1 ha
  exact hs.original i a ha

theorem versionedRegionPages_original (region : Region) :
    ∀ a ∈ hs.versionedRegionPages region, (am.getOriginalOf (hs.getShadowOf a)).addr = a := by
  intro a ha
  obtain ⟨i, -, ha⟩ := List.mem_flatMap.1 ha
  obtain ⟨j, -, ha⟩ := List.mem_flatMap.1 ha
  exact hs.versionedOriginal i j a ha

end Heaps

/-- **A region is walked over as `end_iter` walks over its lists**, whatever
    the set of heaps and the check: the memory is the same afterwards, and so
    are the parcels that are sent directly.  But the touched pages without
    metadata are entered in the read-only buffer as well. -/
theorem forwardRegion_walk (hs : Heaps am) (region : Region) (wid : Wid) (iter : ℕ)
    (check : Check) {s : Sender} {xs : List ℕ} (hbuf : s.out.roPageBuffer.Pending xs) :
    ForwardsAs wid iter check s (hs.forwardRegion region wid iter check s)
      (forwardShadows wid iter ((hs.regionPages region).map hs.getShadowOf) s)
      ((hs.regionPages region).map hs.getShadowOf) xs ∧
    ForwardsAs wid iter check s (hs.forwardVersionedRegion region wid iter check s)
      (forwardShadows wid iter ((hs.versionedRegionPages region).map hs.getShadowOf) s)
      ((hs.versionedRegionPages region).map hs.getShadowOf) xs := by
  rw [hs.forwardRegion_eq, hs.forwardVersionedRegion_eq]
  exact ⟨Heaps.forwardHeapPages_forwardsAs (hs.regionPages_original region) hbuf wid iter check,
    Heaps.forwardHeapPages_forwardsAs (hs.versionedRegionPages_original region) hbuf wid iter check⟩

/-- The heap `0` is the page at `0x1000`, and all other heaps are empty. -/
def Heaps.onePage : Heaps .shifted where
  heapBegin _ := pageSize
  heapBound i := if i = 0 then 2 * pageSize else 0
  versionedHeapBegin _ _ := 0
  versionedHeapBound _ _ := 0
  maxWorkers := 2
  getShadowOf _ := SpecPriv.onePage
  original i a ha := by
    have hsize : pageSize = 4096 := rfl
    obtain ⟨k, hk, rfl⟩ := List.mem_map.1 ha
    have hlt := lt_of_lt_rounds (List.mem_range.1 hk)
    rw [hsize] at hlt
    obtain rfl : k = 0 := by
      split_ifs at hlt <;> omega
    rfl
  versionedOriginal i j a ha := by
    cases ha

theorem forwardRegion_walk_onePage :
    ForwardsAs 1 6 .free ⟨fun _ => 0x80#8, .init⟩
      (Heaps.onePage.forwardRegion (some [0, 3]) 1 6 .free ⟨fun _ => 0x80#8, .init⟩)
      (forwardShadows 1 6 ((Heaps.onePage.regionPages (some [0, 3])).map
        Heaps.onePage.getShadowOf) ⟨fun _ => 0x80#8, .init⟩)
      ((Heaps.onePage.regionPages (some [0, 3])).map Heaps.onePage.getShadowOf) [] ∧
    ForwardsAs 1 6 .free ⟨fun _ => 0x80#8, .init⟩
      (Heaps.onePage.forwardVersionedRegion (some [0, 3]) 1 6 .free ⟨fun _ => 0x80#8, .init⟩)
      (forwardShadows 1 6 ((Heaps.onePage.versionedRegionPages (some [0, 3])).map
        Heaps.onePage.getShadowOf) ⟨fun _ => 0x80#8, .init⟩)
      ((Heaps.onePage.versionedRegionPages (some [0, 3])).map Heaps.onePage.getShadowOf) [] :=
  forwardRegion_walk Heaps.onePage (some [0, 3]) 1 6 .free pending_init

/-! ## Checking -/

/-- The page was touched, and a byte of it has bit 0 set. -/
def BreaksNrbw (m : Memory) (t : am.Shadow) : Prop :=
  touched m t.1.addr ∧ ∃ j < pageSize, (m (t.1.addr + j)).getLsbD 0 = true

theorem AgreeOn.breaksNrbw {m' : Memory} (h : AgreeOn m m' t.1.addr) :
    BreaksNrbw m t ↔ BreaksNrbw m' t := by
  unfold BreaksNrbw
  rw [h.touched]
  refine and_congr_right' (exists_congr ?_)
  intro j
  refine and_congr_right ?_
  intro hj
  rw [h j hj]

theorem clearTouched_getLsbD (m : Memory) (a b : ℕ) :
    (clearTouched m a b).getLsbD 0 = (m b).getLsbD 0 := by
  have hbit : ∀ c : Byte, (c &&& 0x7f#8).getLsbD 0 = c.getLsbD 0 := by decide
  unfold clearTouched
  rw [Function.update_apply]
  split_ifs with h
  · rw [h, hbit]
  · rfl

theorem checkNrbw_clearTouched (m : Memory) (a : ℕ) : checkNrbw a (clearTouched m a) = true ↔
    ∀ j < pageSize, (m (a + j)).getLsbD 0 = false := by
  refine (checkNrbw_agree (clearTouched m a) a).2.trans ?_
  refine forall₂_congr ?_
  intro j _
  rw [clearTouched_getLsbD]

namespace Heaps

variable {hs : Heaps am} {a b : ℕ} {s : Sender} {misspec : Sender → Except Sender Sender}

theorem checkHeapPage_ok (misspec : Sender → Except Sender Sender) (wid : Wid) (iter : ℕ)
    (h : ¬ BreaksNrbw s.mem (hs.getShadowOf a)) :
    hs.checkHeapPage misspec wid iter a s = .ok (hs.forwardHeapPage wid iter .free a s) := by
  have hmem := congrArg Prod.fst (@clearRead_eq (clearTouched s.mem (hs.getShadowOf a).1.addr)
    (hs.getShadowOf a).1.addr)
  unfold checkHeapPage forwardHeapPage
  by_cases ht : touched s.mem (hs.getShadowOf a).1.addr
  · have hcheck : checkNrbw (hs.getShadowOf a).1.addr
        (clearTouched s.mem (hs.getShadowOf a).1.addr) = true := by
      rw [checkNrbw_clearTouched]
      intro j hj
      by_contra hbit
      exact h ⟨ht, j, hj, Bool.eq_true_of_not_eq_false hbit⟩
    simp only [if_pos ht, hmem, hcheck, if_true]
  · simp only [if_neg ht]

theorem checkHeapPage_misspec (h : BreaksNrbw s.mem (hs.getShadowOf a)) :
    hs.checkHeapPage misspec wid iter a s =
      misspec { s with mem := clearTouched s.mem (hs.getShadowOf a).1.addr } := by
  obtain ⟨ht, j, hj, hbit⟩ := h
  have hmem := congrArg Prod.fst (@clearRead_eq (clearTouched s.mem (hs.getShadowOf a).1.addr)
    (hs.getShadowOf a).1.addr)
  have hcheck : ¬ checkNrbw (hs.getShadowOf a).1.addr
      (clearTouched s.mem (hs.getShadowOf a).1.addr) = true := by
    rw [checkNrbw_clearTouched]
    intro hall
    rw [hall j hj] at hbit
    cases hbit
  unfold checkHeapPage
  simp only [if_pos ht, hmem, if_neg hcheck]

/-- Forwarding a page that keeps the property leaves the others as they are. -/
theorem breaksNrbw_forward (ha : (am.getOriginalOf (hs.getShadowOf a)).addr = a)
    (h : ¬ BreaksNrbw s.mem (hs.getShadowOf a)) (t : am.Shadow) :
    BreaksNrbw (hs.forwardHeapPage wid iter check a s).mem t ↔ BreaksNrbw s.mem t := by
  rw [forwardHeapPage_eq ha]
  by_cases htouched : touched s.mem (hs.getShadowOf a).1.addr
  · rw [if_pos htouched]
    by_cases ht : t = hs.getShadowOf a
    · subst ht
      refine iff_of_false ?_ h
      rintro ⟨hzero, -⟩
      have h0 : setZeroPage s.mem (hs.getShadowOf a).1.addr (hs.getShadowOf a).1.addr = 0#8 :=
        setZeroPage_apply _ pageSize_pos
      simp [touched, h0] at hzero
    · have hne : t.1 ≠ (hs.getShadowOf a).1 := fun he => ht (Subtype.ext he)
      have hagree : AgreeOn (setZeroPage s.mem (hs.getShadowOf a).1.addr) s.mem t.1.addr :=
        fun j hj => setZeroPage_other hne hj
      exact hagree.breaksNrbw
  · rw [if_neg htouched]

/-- The pages before the first one that breaks the property are forwarded. -/
theorem checkHeapPages_append (misspec : Sender → Except Sender Sender) (wid : Wid) (iter : ℕ) :
    ∀ {pre : List ℕ} {s : Sender} (post : List ℕ),
    (∀ a ∈ pre, (am.getOriginalOf (hs.getShadowOf a)).addr = a) →
    (∀ a ∈ pre, ¬ BreaksNrbw s.mem (hs.getShadowOf a)) →
      hs.checkHeapPages misspec wid iter (pre ++ post) s =
        hs.checkHeapPages misspec wid iter post (hs.forwardHeapPages wid iter .free pre s) ∧
      ∀ t : am.Shadow, BreaksNrbw (hs.forwardHeapPages wid iter .free pre s).mem t ↔
        BreaksNrbw s.mem t
  | [], _, _, _, _ => ⟨rfl, fun _ => Iff.rfl⟩
  | a :: pre, s, post, horig, h => by
    have hfirst := h a List.mem_cons_self
    have hkeep := @breaksNrbw_forward _ wid iter .free hs a s (horig a List.mem_cons_self) hfirst
    obtain ⟨hrest, hbreaks⟩ := checkHeapPages_append misspec wid iter post
      (fun b hb => horig b (List.mem_cons_of_mem a hb))
      (fun b hb hbreak => h b (List.mem_cons_of_mem a hb) ((hkeep _).1 hbreak))
    refine ⟨?_, fun t => (hbreaks t).trans (hkeep t)⟩
    unfold checkHeapPages forwardHeapPages at hrest ⊢
    rw [List.cons_append, List.foldlM_cons, checkHeapPage_ok misspec wid iter hfirst,
      Stopping.bind_ok, hrest, List.foldl_cons]

/-- Checking the pages from `s` ends with `r`, and forwarding them without the
    check with `f`. -/
structure ChecksAs (hs : Heaps am) (misspec : Sender → Except Sender Sender) (wid : Wid)
    (iter : ℕ) (pages : List ℕ) (s f : Sender) (r : Except Sender Sender) : Prop where
  passes : (∀ a ∈ pages, ¬ BreaksNrbw s.mem (hs.getShadowOf a)) → r = .ok f
  /-- at the first page that breaks the property, `misspec` -/
  stops : ∀ pre a post, pages = pre ++ a :: post →
    (∀ b ∈ pre, ¬ BreaksNrbw s.mem (hs.getShadowOf b)) → BreaksNrbw s.mem (hs.getShadowOf a) →
      let f := hs.forwardHeapPages wid iter .free pre s
      r = misspec { f with mem := clearTouched f.mem (hs.getShadowOf a).1.addr } >>=
        hs.checkHeapPages misspec wid iter post

theorem checkHeapPages_checksAs {pages : List ℕ}
    (h : ∀ a ∈ pages, (am.getOriginalOf (hs.getShadowOf a)).addr = a)
    (misspec : Sender → Except Sender Sender) (wid : Wid) (iter : ℕ) (s : Sender) :
    ChecksAs hs misspec wid iter pages s (hs.forwardHeapPages wid iter .free pages s)
      (hs.checkHeapPages misspec wid iter pages s) := by
  constructor
  · intro hkeep
    have happend := (checkHeapPages_append misspec wid iter [] h hkeep).1
    rw [List.append_nil] at happend
    exact happend
  · rintro pre a post rfl hkeep hbreak f
    have hpre : ∀ b ∈ pre, (am.getOriginalOf (hs.getShadowOf b)).addr = b := by
      intro b hb
      exact h b (List.mem_append_left _ hb)
    obtain ⟨happend, hbreaks⟩ := checkHeapPages_append misspec wid iter (a :: post) hpre hkeep
    have hstop := @checkHeapPage_misspec _ wid iter hs a f misspec ((hbreaks _).2 hbreak)
    rw [happend, ← hstop]
    rfl

end Heaps

/-- **The checked functions are the unchecked ones with the first bad page as a
    stop**: they forward a region without a bad page as `forward_region` does
    with `CHECK_FREE`, and at the first bad page, with the pages before it
    forwarded and nothing of the page itself but the touched bit of its shadow
    cleared, they report a misspeculation. -/
theorem checkRegionNrbw_stops (hs : Heaps am) (misspec : Sender → Except Sender Sender)
    (region : Region) (wid : Wid) (iter : ℕ) (s : Sender) :
    hs.ChecksAs misspec wid iter (hs.regionPages region) s
      (hs.forwardRegion region wid iter .free s)
      (hs.checkRegionNrbw misspec region wid iter s) ∧
    hs.ChecksAs misspec wid iter (hs.versionedRegionPages region) s
      (hs.forwardVersionedRegion region wid iter .free s)
      (hs.checkVersionedRegionNrbw misspec region wid iter s) := by
  rw [hs.forwardRegion_eq, hs.forwardVersionedRegion_eq, hs.checkRegionNrbw_eq,
    hs.checkVersionedRegionNrbw_eq]
  exact ⟨Heaps.checkHeapPages_checksAs (hs.regionPages_original region) misspec wid iter s,
    Heaps.checkHeapPages_checksAs (hs.versionedRegionPages_original region) misspec wid iter s⟩

end SpecPriv
