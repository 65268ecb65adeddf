/-
  Validation of loads.

  The try-commit unit validates a byte if bit 0 of its metadata is set, and
  all bytes of the pages in read-only chunks.  `clear_read` is to set bit 0 of
  the bytes that were read and not written; the mask it adds has no other bits
  than the word already has, so it does not.

  `validatesLoads_iff` says what is left: the loads of an iteration are
  validated iff every touched page was only read, or has bit 0 set already
  wherever a byte was read and not written.  The rest of the metadata arrives
  as it was in any case.
-/
import SpecPriv.Trans.Merge

namespace SpecPriv

open Framing

/-- The byte was read, and not written. -/
def ReadNotWritten (b : Byte) : Prop := b &&& 0x04#8 ≠ 0#8 ∧ b &&& 0x02#8 = 0#8

/-- Bit 0 asks for validation. -/
def AsksValidation (b : Byte) : Prop := b &&& 0x01#8 ≠ 0#8

/-- The pairs that the receive loop takes from a stream. -/
def receivedPairs (ms : List Packet) : List (Packet × Packet) :=
  match receive Packet.take ms with
  | some (items, _) => items.filterMap Item.pair?
  | none => []

/-- The metadata that a stream brings, by the addresses of the data. -/
def receivedMetadata (ms : List Packet) : Memory :=
  (takePairs updateByte (receivedPairs ms) ⟨fun _ => 0#8, fun _ => 0#8⟩).metadata

variable {am : AddressMap} {W : Wire} {rt : Runtime} {wid : Wid} {w : Worker am} {f : MergeFn}
  {m : Memory} {s t : am.Shadow} {r : Receiver} {pages : List am.Shadow} {j : ℕ}

/-- The loads of the iteration are validated: a byte that was read and not
    written is on a page in a read-only chunk sent for the iteration, or its
    metadata arrives with bit 0 set; other bytes of forwarded pages arrive
    with their metadata as it was, apart from the touched bit. -/
def ValidatesLoads (W : Wire) (rt : Runtime) (wid : Wid) (w : Worker am) : Prop :=
  let m := rt.updateShadow w.mem
  let o' := (endIter rt wid w).out
  (∀ s ∈ w.shadows, touched m s.1.addr → ∀ j < pageSize, ReadNotWritten (m (s.1.addr + j)) →
    (am.getOriginalOf s).addr ∈ entriesUnder w.currentIter (o'.log.drop w.out.log.length) ∨
    AsksValidation (receivedMetadata (W.stream w.out o') ((am.getOriginalOf s).addr + j))) ∧
  (∀ s ∈ w.shadows, Marked m s → ¬ ReadonlyPage (clearTouched m s.1.addr) s.1.addr →
    ∀ j < pageSize, ¬ ReadNotWritten (m (s.1.addr + j)) →
    receivedMetadata (W.stream w.out o') ((am.getOriginalOf s).addr + j) =
      clearTouched m s.1.addr (s.1.addr + j))

/-- A touched page was only read, or asks for validation wherever it was read
    and not written. -/
def LoadsMarked (rt : Runtime) (w : Worker am) : Prop :=
  let m := rt.updateShadow w.mem
  ∀ s ∈ w.shadows, touched m s.1.addr →
    ReadonlyPage (clearTouched m s.1.addr) s.1.addr ∨
    ∀ j < pageSize, ReadNotWritten (m (s.1.addr + j)) → AsksValidation (m (s.1.addr + j))

/-! ## What is received for the forwarded pages -/

theorem original_addr_disjoint (h : s ≠ t) :
    (am.getOriginalOf s).addr + pageSize ≤ (am.getOriginalOf t).addr ∨
      (am.getOriginalOf t).addr + pageSize ≤ (am.getOriginalOf s).addr := by
  refine Page.disjoint ?_
  intro heq
  exact h (am.injective heq)

/-- Merging a page leaves the metadata of other pages as it was. -/
theorem mergePage_metadata_other (h : s ≠ t) (hj : j < pageSize) :
    (mergePage f r m (am.getOriginalOf s).addr s.1.addr).metadata ((am.getOriginalOf t).addr + j) =
      r.metadata ((am.getOriginalOf t).addr + j) := by
  refine mergeBytes_metadata_of_not_mem ?_
  rcases original_addr_disjoint h with hd | hd
  · right
    omega
  · left
    omega

theorem mergePage_metadata (hj : j < pageSize) :
    (mergePage f r m (am.getOriginalOf s).addr s.1.addr).metadata ((am.getOriginalOf s).addr + j) =
      m (s.1.addr + j) :=
  Memory.fill_apply r.metadata (am.getOriginalOf s).addr pageSize (fun j => m (s.1.addr + j)) hj

/-- What the receiver does with the parcel of a page. -/
theorem parcelOf_applied (hf : ∀ old d, f old d 0#8 = old)
    (hr : ∀ j < pageSize, r.metadata ((am.getOriginalOf s).addr + j) = 0#8) :
    takePairs f ((parcelOf m s).pairs W .required) r =
      if ReadonlyPage (clearTouched m s.1.addr) s.1.addr then r
      else mergePage f r (clearTouched m s.1.addr) (am.getOriginalOf s).addr s.1.addr := by
  split_ifs with hro
  · rw [parcelOf, parcel, if_pos hro]
    rfl
  · exact parcel_applied hf hr hro

/-- The metadata of the forwarded pages arrives, and no other. -/
theorem pages_applied (hf : ∀ old d, f old d 0#8 = old) (hj : j < pageSize) :
    ∀ {pages : List am.Shadow} {r : Receiver}, pages.Nodup →
      (∀ s ∈ pages, ∀ j < pageSize, r.metadata ((am.getOriginalOf s).addr + j) = 0#8) →
      (takePairs f (pagePairs W m pages) r).metadata ((am.getOriginalOf t).addr + j) =
        if t ∈ pages ∧ ¬ ReadonlyPage (clearTouched m t.1.addr) t.1.addr then
          clearTouched m t.1.addr (t.1.addr + j)
        else r.metadata ((am.getOriginalOf t).addr + j)
  | [], r, _, _ => by simp [pagePairs, takePairs]
  | s :: pages, r, hnd, hr => by
    obtain ⟨hs, hnd⟩ := List.nodup_cons.1 hnd
    have hpairs : pagePairs W m (s :: pages) = (parcelOf m s).pairs W .required ++
        pagePairs W m pages := by
      rw [pagePairs, List.flatMap_cons, pagePairs]
    rw [hpairs, takePairs_append, parcelOf_applied hf (hr s List.mem_cons_self)]
    have hr' : ∀ u ∈ pages, ∀ k < pageSize, r.metadata ((am.getOriginalOf u).addr + k) = 0#8 := by
      intro u hu
      exact hr u (List.mem_cons_of_mem s hu)
    by_cases hro : ReadonlyPage (clearTouched m s.1.addr) s.1.addr
    · rw [if_pos hro, pages_applied hf hj hnd hr']
      refine if_congr ?_ rfl rfl
      rw [List.mem_cons, and_congr_left_iff]
      intro ht
      constructor
      · exact Or.inr
      · rintro (rfl | hmem)
        · exact absurd hro ht
        · exact hmem
    · have hr'' : ∀ u ∈ pages, ∀ k < pageSize,
          (mergePage f r (clearTouched m s.1.addr) (am.getOriginalOf s).addr s.1.addr).metadata
            ((am.getOriginalOf u).addr + k) = 0#8 := by
        intro u hu k hk
        have hsu : s ≠ u := by
          rintro rfl
          exact hs hu
        rw [mergePage_metadata_other hsu hk, hr' u hu k hk]
      rw [if_neg hro, pages_applied hf hj hnd hr'']
      by_cases hts : t = s
      · subst hts
        have hnot : ¬ (t ∈ pages ∧ ¬ ReadonlyPage (clearTouched m t.1.addr) t.1.addr) := by
          rintro ⟨ht, -⟩
          exact hs ht
        rw [if_neg hnot, if_pos ⟨List.mem_cons_self, hro⟩, mergePage_metadata hj]
      · rw [mergePage_metadata_other (Ne.symm hts) hj]
        refine if_congr ?_ rfl rfl
        rw [List.mem_cons, or_iff_right hts]

/-- What arrives for a byte of the page of `t`. -/
theorem endIter_metadata (W : Wire) (hrun : runIteration rt.layout wid w.currentIter)
    (heoi : eoiTest rt.layout wid w.currentIter) (t : am.Shadow) (hj : j < pageSize) :
    receivedMetadata (W.stream w.out (endIter rt wid w).out) ((am.getOriginalOf t).addr + j) =
      if (t ∈ w.shadows ∧ Marked (rt.updateShadow w.mem) t) ∧
          ¬ ReadonlyPage (clearTouched (rt.updateShadow w.mem) t.1.addr) t.1.addr then
        clearTouched (rt.updateShadow w.mem) t.1.addr (t.1.addr + j)
      else 0#8 := by
  obtain ⟨pages, items, ms, hnodup, hmem, hstream, hframes, hpairs, -⟩ :=
    endIter_stream (W := W) hrun heoi
  have hrec : receivedPairs (W.stream w.out (endIter rt wid w).out) =
      pagePairs W (rt.updateShadow w.mem) pages := by
    have hall := (mallocPackets_frames W w).append hframes
    rw [receivedPairs, hstream, hall.receive (eoiPacket_take (W := W) 0xDEADBEEF 0 0)]
    simp only [List.filterMap_append, hpairs, List.filterMap_map, Function.comp_def, Item.pair?,
      List.filterMap_none, List.nil_append]
  rw [receivedMetadata, hrec, pages_applied updateByte_zero hj hnodup fun _ _ _ _ => rfl]
  exact if_congr (and_congr_left' (hmem t)) rfl rfl

/-- The pages in the read-only chunks of the iteration. -/
theorem endIter_entries (hr : w.Reachable rt wid)
    (hrun : runIteration rt.layout wid w.currentIter) (t : am.Shadow) :
    (am.getOriginalOf t).addr ∈
        entriesUnder w.currentIter ((endIter rt wid w).out.log.drop w.out.log.length) ↔
      (t ∈ w.shadows ∧ Marked (rt.updateShadow w.mem) t) ∧
        ReadonlyPage (clearTouched (rt.updateShadow w.mem) t.1.addr) t.1.addr := by
  obtain ⟨pages, hmem, -, cs, hlog, hcs, -⟩ := endIter_sends hr.pending hrun
  rw [List.append_nil, List.nil_append] at hcs
  rw [hlog, List.drop_left, hcs, ← hmem]
  have hentries (s : am.Shadow) (x : ℕ) : x ∈ (parcelOf (rt.updateShadow w.mem) s).entries ↔
      ReadonlyPage (clearTouched (rt.updateShadow w.mem) s.1.addr) s.1.addr ∧
        x = (am.getOriginalOf s).addr := by
    unfold parcelOf parcel
    split_ifs with hro
    · simp [Parcel.entries, hro]
    · simp [Parcel.entries, hro]
    · simp [Parcel.entries, hro]
  rw [pageEntries, List.mem_flatMap]
  constructor
  · rintro ⟨s, hs, hx⟩
    obtain ⟨hro, haddr⟩ := (hentries s _).1 hx
    obtain rfl : t = s := am.injective (Page.ext_addr haddr)
    exact ⟨hs, hro⟩
  · rintro ⟨ht, hro⟩
    exact ⟨t, ht, (hentries t _).2 ⟨hro, rfl⟩⟩

/-! ## When loads are validated -/

/-- Clearing the touched bit keeps the other bits. -/
theorem clearTouched_and {a x : ℕ} {c : Byte} (hc : 0x7f#8 &&& c = c) :
    clearTouched m a x &&& c = m x &&& c := by
  rw [clearTouched, Function.update_apply]
  split_ifs with h
  · rw [h, BitVec.and_assoc, hc]
  · rfl

theorem asksValidation_clearTouched {a x : ℕ} :
    AsksValidation (clearTouched m a x) ↔ AsksValidation (m x) := by
  rw [AsksValidation, AsksValidation, clearTouched_and (by decide)]

/-- A touched page with a byte that was read is forwarded. -/
theorem ReadNotWritten.marked (h : ReadNotWritten (m (s.1.addr + j))) (hj : j < pageSize)
    (ht : touched m s.1.addr) : Marked m s := by
  refine ⟨ht, ?_⟩
  intro hz
  refine h.1 ?_
  have h0 := isZeroPage_iff.1 hz j hj
  rw [← clearTouched_and (m := m) (a := s.1.addr) (by decide), h0]
  rfl

/-- The part of `ValidatesLoads` about single bytes says that the page was only read,
    or that the byte asks for validation already. -/
theorem byte_validated_iff (W : Wire) (hr : w.Reachable rt wid)
    (hrun : runIteration rt.layout wid w.currentIter)
    (heoi : eoiTest rt.layout wid w.currentIter) (hs : s ∈ w.shadows)
    (ht : touched (rt.updateShadow w.mem) s.1.addr) (hj : j < pageSize)
    (hb : ReadNotWritten (rt.updateShadow w.mem (s.1.addr + j))) :
    ((am.getOriginalOf s).addr ∈
        entriesUnder w.currentIter ((endIter rt wid w).out.log.drop w.out.log.length) ∨
      AsksValidation (receivedMetadata (W.stream w.out (endIter rt wid w).out)
        ((am.getOriginalOf s).addr + j))) ↔
    (ReadonlyPage (clearTouched (rt.updateShadow w.mem) s.1.addr) s.1.addr ∨
      AsksValidation (rt.updateShadow w.mem (s.1.addr + j))) := by
  have hm := hb.marked hj ht
  rw [endIter_entries hr hrun, endIter_metadata W hrun heoi s hj]
  by_cases hro : ReadonlyPage (clearTouched (rt.updateShadow w.mem) s.1.addr) s.1.addr
  · exact iff_of_true (Or.inl ⟨⟨hs, hm⟩, hro⟩) (Or.inl hro)
  · rw [if_pos ⟨⟨hs, hm⟩, hro⟩, asksValidation_clearTouched]
    refine or_congr_left ?_
    constructor
    · rintro ⟨-, h⟩
      exact h
    · intro h
      exact absurd h hro

theorem ValidatesLoads.marked (h : ValidatesLoads W rt wid w) (hr : w.Reachable rt wid)
    (hrun : runIteration rt.layout wid w.currentIter)
    (heoi : eoiTest rt.layout wid w.currentIter) : LoadsMarked rt w := by
  intro s hs ht
  by_cases hro : ReadonlyPage (clearTouched (rt.updateShadow w.mem) s.1.addr) s.1.addr
  · exact Or.inl hro
  · right
    intro j hj hb
    have hbyte := (byte_validated_iff W hr hrun heoi hs ht hj hb).1 (h.1 s hs ht j hj hb)
    exact hbyte.resolve_left hro

/-- **When the loads of an iteration are validated**: in the iteration of its
    owner, iff the bytes that were read and not written ask for validation
    before `end_iter`, except on pages that were only read. -/
theorem validatesLoads_iff (W : Wire) (hr : w.Reachable rt wid)
    (hw : wid.toNat < rt.layout.numWorkers) (hi : w.currentIter < 2 ^ 31)
    (hrun : runIteration rt.layout wid w.currentIter) :
    ValidatesLoads W rt wid w ↔ LoadsMarked rt w := by
  have heoi := StageLayout.eoiTest_of_runIteration hw hi hrun
  constructor
  · intro h
    exact h.marked hr hrun heoi
  · intro h
    constructor
    · intro s hs ht j hj hb
      rw [byte_validated_iff W hr hrun heoi hs ht hj hb]
      rcases h s hs ht with hro | hasks
      · exact Or.inl hro
      · exact Or.inr (hasks j hj hb)
    · intro s hs hm hro j hj _
      rw [endIter_metadata W hrun heoi s hj, if_pos ⟨⟨hs, hm⟩, hro⟩]

/-- The memory with a page of which the first byte was read, and the second
    one written. -/
def readThenWritten : Memory := fun x =>
  if x = onePage.1.addr then 0x84#8 else if x = onePage.1.addr + 1 then 0x03#8 else 0#8

theorem validatesLoads_iff_readThenWritten :
    ValidatesLoads plainWire plainRuntime 1 (onePageWorker readThenWritten) ↔
      LoadsMarked plainRuntime (onePageWorker readThenWritten) :=
  validatesLoads_iff plainWire (.start _ rfl) (by decide) (by decide) (by decide)

/-- The load of the first byte is not validated. -/
theorem not_validatesLoads :
    ¬ ValidatesLoads plainWire plainRuntime 1 (onePageWorker readThenWritten) := by
  intro h
  have h0 : readThenWritten onePage.1.addr = 0x84#8 := if_pos rfl
  have h1 : readThenWritten (onePage.1.addr + 1) = 0x03#8 := by
    rw [readThenWritten, if_neg (by omega), if_pos rfl]
  have hmem : plainRuntime.updateShadow (onePageWorker readThenWritten).mem = readThenWritten := rfl
  have hpage : onePage ∈ (onePageWorker readThenWritten).shadows := by
    simp [onePageWorker, Worker.shadows]
  have hmarked := h.marked (.start _ rfl) (by decide) (by decide) onePage hpage
  have ht : touched readThenWritten onePage.1.addr := by
    rw [touched, h0]
    decide
  rcases hmarked ht with hro | hb
  · -- the written byte: the page was not only read
    have h := hro 1 (by decide)
    rw [clearTouched, Function.update_of_ne (by omega), hmem, h1] at h
    exact absurd h (by decide)
  · -- the read byte: bit 0 is not set
    have h := hb 0 (by decide)
    rw [hmem, Nat.add_zero, h0] at h
    exact absurd rfl (h ⟨by decide, rfl⟩)

end SpecPriv
