/-
  The packets of an iteration, and the loop that takes them.

  A worker's calls put packets into the queue of a receiver, in the order of
  the calls.  The receive loop of `begin_iter` has no other framing than the
  order and the check field: it takes a packet together with the next one, or
  alone, by type and `is_write`.

  `endIter_received`: the stream of an iteration is taken as it was meant:
  pairs are the data and the metadata of one page or of one word, read-only
  chunks and allocations are taken alone, and the loop stops at the
  end-of-iteration packet with nothing left.
-/
import SpecPriv.Lib.Framing
import SpecPriv.Orig.EndIter

namespace SpecPriv

open Framing

inductive PacketType
  | normal
  | super
  | done
  | alloc
deriving DecidableEq

/-- What the `value` of a packet is or points to. -/
inductive PacketValue
  | word (w : BitVec 64)
  | page (copy : PageBytes)
  | roPages (data : Vector ℕ roEntryBufferSize)
  | mallocs (elem : Fin pageSize → VerMallocInstance)
  | event (value : ℕ)

structure Packet where
  ptr : ℕ
  value : PacketValue
  size : ℕ
  isWrite : Check
  type : PacketType

/-- How the receive loop takes a packet. -/
def Packet.take (p : Packet) : Take :=
  match p.type with
  | .normal => .withNext
  | .super => if p.isWrite = .roPage then .alone else .withNext
  | .done => .stop
  | .alloc => .alone

/-- The packets of the calls that send other things than pages and words. -/
structure Wire where
  roPageBufferAddr : ℕ
  mallocPackets : (Fin pageSize → VerMallocInstance) → ℕ → List Packet
  eoiPacket : ℕ → ℕ → ℕ → Packet
  /-- `broadcast_malloc_chunk` sends allocations only -/
  mallocPackets_type : ∀ elem size, ∀ p ∈ mallocPackets elem size, p.type = .alloc
  eoiPacket_type : ∀ ptr size value, (eoiPacket ptr size value).type = .done

/-- The packet of `forward_page`. -/
def Wire.pagePacket (W : Wire) (check : Check) : Source → Packet
  | .page addr copy => ⟨addr, .page copy, pageSize, check, .super⟩
  | .roPageBuffer data => ⟨W.roPageBufferAddr, .roPages data, pageSize, check, .super⟩

/-- The packet of `forward_packet`. -/
def wordPacket (ptr : ℕ) (value : BitVec 64) (size : ℕ) (check : Check) : Packet :=
  ⟨ptr, .word value, size, check, .normal⟩

/-- The packets that a call puts into the queue of a receiver. -/
def Wire.packets (W : Wire) : Call → List Packet
  | .forwardPage _ _ src check => [W.pagePacket check src]
  | .forwardPacket _ _ ptr value size check => [wordPacket ptr value size check]
  | .broadcastMallocChunk _ elem size => W.mallocPackets elem size
  | .broadcastEoi _ ptr size value => [W.eoiPacket ptr size value]

/-- The packets of the calls made between two states. -/
def Wire.stream (W : Wire) (o o' : Outbox) : List Packet :=
  (o'.log.drop o.log.length).flatMap W.packets

/-- The pairs of packets of a parcel. -/
def Parcel.pairs (W : Wire) (check : Check) : Parcel → List (Packet × Packet)
  | pages mem data shadow metadata =>
    [(W.pagePacket check (.page mem data), W.pagePacket check (.page shadow metadata))]
  | words ws => ws.map fun w => (wordPacket w.1 w.2.1 8 check, wordPacket 0 w.2.2 8 check)
  | readonly _ => []

/-- The packet is a chunk of the read-only buffer. -/
def Wire.IsRoChunk (W : Wire) (p : Packet) : Prop :=
  ∃ data, p = W.pagePacket .roPage (.roPageBuffer data)

variable {W : Wire} {wid : Wid} {iter : ℕ} {check : Check} {o o' o'' : Outbox}
  {ps ps' : List (Packet × Packet)} {am : AddressMap}

theorem take_pagePacket (h : check ≠ .roPage) (addr : ℕ) (copy : PageBytes) :
    (W.pagePacket check (.page addr copy)).take = .withNext :=
  if_neg h

theorem Wire.IsRoChunk.take {p : Packet} (h : W.IsRoChunk p) : p.take = .alone := by
  obtain ⟨data, rfl⟩ := h
  rfl

/-! ## Framed steps -/

/-- A step sends a stream that is taken as the pairs `ps`, and as read-only
    chunks anywhere between them. -/
def Emits (W : Wire) (o o' : Outbox) (ps : List (Packet × Packet)) : Prop :=
  ∃ cs items, o'.log = o.log ++ cs ∧ Frames Packet.take (cs.flatMap W.packets) items ∧
    items.filterMap Item.pair? = ps ∧ ∀ p ∈ items.filterMap Item.alone?, W.IsRoChunk p

theorem Emits.refl : Emits W o o [] := ⟨[], [], by simp, Frames.nil, rfl, by simp⟩

theorem Emits.trans (h : Emits W o o' ps) (h' : Emits W o' o'' ps') :
    Emits W o o'' (ps ++ ps') := by
  obtain ⟨cs, items, hlog, hframes, hpairs, halone⟩ := h
  obtain ⟨cs', items', hlog', hframes', hpairs', halone'⟩ := h'
  refine ⟨cs ++ cs', items ++ items', ?_, ?_, ?_, ?_⟩
  · rw [hlog', hlog, List.append_assoc]
  · rw [List.flatMap_append]
    exact hframes.append hframes'
  · rw [List.filterMap_append, hpairs, hpairs']
  · intro p hp
    rw [List.filterMap_append, List.mem_append] at hp
    rcases hp with hp | hp
    · exact halone p hp
    · exact halone' p hp

theorem forwardRoPage_emits (o : Outbox) : Emits W o (forwardRoPage wid iter o) [] := by
  unfold forwardRoPage
  split_ifs
  · have hchunk : W.IsRoChunk (W.pagePacket .roPage (.roPageBuffer o.roPageBuffer.data)) :=
      ⟨_, rfl⟩
    refine ⟨[_], [.alone _], rfl, Frames.alone hchunk.take, rfl, ?_⟩
    simpa [Item.alone?] using hchunk
  · exact Emits.refl

/-- What a step sends depends on its log only. -/
theorem Emits.congr (h : Emits W o o' ps) (hlog : o''.log = o'.log) : Emits W o o'' ps := by
  obtain ⟨cs, items, hcs, hrest⟩ := h
  exact ⟨cs, items, hlog.trans hcs, hrest⟩

theorem bufferRoPage_emits (page : ℕ) (o : Outbox) :
    Emits W o (bufferRoPage wid iter page o) [] := by
  have hroom : Emits W o (makeRoom wid iter o) [] := by
    unfold makeRoom
    split_ifs
    · exact (forwardRoPage_emits o).congr rfl
    · exact Emits.refl
  exact hroom.congr rfl

/-- A parcel is taken as its pairs. -/
theorem Parcel.send_emits (hc : check ≠ .roPage) (p : Parcel) (o : Outbox) :
    Emits W o (p.send wid iter check o) (p.pairs W check) := by
  cases p with
  | pages mem data shadow metadata =>
    rw [sendPages_eq]
    refine ⟨_, [.pair _ _], rfl, ?_, rfl, ?_⟩
    · exact Frames.pair (take_pagePacket hc mem data)
    · simp [Item.alone?]
  | words ws =>
    rw [sendWords_eq]
    refine ⟨_, ws.flatMap fun w =>
      [.pair (wordPacket w.1 w.2.1 8 check) (wordPacket 0 w.2.2 8 check)], rfl, ?_, ?_, ?_⟩
    · rw [calls, List.flatMap_assoc]
      refine Frames.flatMap ?_
      intro w _
      exact Frames.pair rfl
    · simp [pairs, List.map_eq_flatMap, List.filterMap_flatMap, Item.pair?]
    · simp [List.filterMap_flatMap, Item.alone?]
  | readonly mem => exact bufferRoPage_emits mem o

/-- The pairs of some pages. -/
def pagePairs (W : Wire) (m : Memory) (pages : List am.Shadow) : List (Packet × Packet) :=
  pages.flatMap fun s => (parcelOf m s).pairs W .required

theorem sendParcels_emits (W : Wire) (wid : Wid) (iter : ℕ) (m : Memory) :
    ∀ (pages : List am.Shadow) (o : Outbox),
    Emits W o (sendParcels wid iter m pages o) (pagePairs W m pages)
  | [], o => Emits.refl
  | s :: pages, o => by
    rw [sendParcels_cons, pagePairs, List.flatMap_cons]
    exact ((parcelOf m s).send_emits (by decide) o).trans (sendParcels_emits W wid iter m pages _)

/-! ## The stream of an iteration -/

/-- The allocations that an iteration sends. -/
def Worker.mallocPackets (W : Wire) (w : Worker am) : List Packet :=
  W.mallocPackets w.verMallocBuffer.elem (w.verMallocBuffer.index * sizeofVerMallocInstance)

theorem mallocPackets_take {w : Worker am} {p : Packet} (hp : p ∈ w.mallocPackets W) :
    p.take = .alone := by
  unfold Packet.take
  rw [W.mallocPackets_type _ _ p hp]

theorem mallocPackets_frames (W : Wire) (w : Worker am) :
    Frames Packet.take (w.mallocPackets W) ((w.mallocPackets W).map .alone) := by
  refine Frames.map_alone ?_
  intro p hp
  exact mallocPackets_take hp

theorem eoiPacket_take (ptr size value : ℕ) : (W.eoiPacket ptr size value).take = .stop := by
  unfold Packet.take
  rw [W.eoiPacket_type]

/-- The packets that the owner of an iteration sends in `end_iter`. -/
theorem endIter_stream {rt : Runtime} {w : Worker am}
    (hrun : runIteration rt.layout wid w.currentIter)
    (heoi : eoiTest rt.layout wid w.currentIter) : ∃ pages items ms,
      pages.Nodup ∧ (∀ s, s ∈ pages ↔ s ∈ w.shadows ∧ Marked (rt.updateShadow w.mem) s) ∧
      W.stream w.out (endIter rt wid w).out =
        (w.mallocPackets W ++ ms) ++ [W.eoiPacket 0xDEADBEEF 0 0] ∧
      Frames Packet.take ms items ∧
      items.filterMap Item.pair? = pagePairs W (rt.updateShadow w.mem) pages ∧
      ∀ p ∈ items.filterMap Item.alone?, W.IsRoChunk p := by
  obtain ⟨pages, st, h, hout⟩ := endIter_owned hrun
  obtain ⟨cs, items, hlog, hframes, hpairs, halone⟩ :=
    (sendParcels_emits W wid w.currentIter (rt.updateShadow w.mem) pages
      (w.out.call (w.mallocCall wid))).trans (forwardRoPage_emits _)
  refine ⟨pages, items, cs.flatMap W.packets, h.nodup, h.mem_iff, ?_, hframes, ?_, halone⟩
  · rw [hout, if_pos heoi, h.out, Wire.stream, Outbox.call, hlog, Outbox.call, List.append_assoc,
      List.append_assoc, List.drop_left]
    simp [Wire.packets, Worker.mallocCall, Worker.mallocPackets, eoiCall]
  · rw [hpairs, List.append_nil]

/-- Both packets of a pair ask for the check that the page was sent with. -/
theorem pagePairs_isWrite {m : Memory} {pages : List am.Shadow} {p q : Packet}
    (h : (p, q) ∈ pagePairs W m pages) : p.isWrite = .required ∧ q.isWrite = .required := by
  obtain ⟨s, -, hs⟩ := List.mem_flatMap.1 h
  generalize parcelOf m s = c at hs
  cases c with
  | pages mem data shadow metadata =>
    cases List.mem_singleton.1 hs
    exact ⟨rfl, rfl⟩
  | words ws =>
    obtain ⟨w, -, hw⟩ := List.mem_map.1 hs
    cases hw
    exact ⟨rfl, rfl⟩
  | readonly mem => cases hs

/-- **The receiver takes the stream as it was meant.**  In the iteration of
    its owner, from any state of the read-only buffer, the stream of `end_iter`
    is taken up to the end-of-iteration packet with nothing left.  The pairs
    are the pairs of the forwarded pages; allocations and read-only chunks are
    taken alone. -/
theorem endIter_received (W : Wire) {rt : Runtime} {w : Worker am}
    (hw : wid.toNat < rt.layout.numWorkers) (hi : w.currentIter < 2 ^ 31)
    (hrun : runIteration rt.layout wid w.currentIter) :
    ∃ items pages eoi,
      receive Packet.take (W.stream w.out (endIter rt wid w).out) = some (items, []) ∧
      W.stream w.out (endIter rt wid w).out = items.flatMap Item.messages ++ [eoi] ∧
      eoi.type = .done ∧
      pages.Nodup ∧ (∀ s, s ∈ pages ↔ s ∈ w.shadows ∧ Marked (rt.updateShadow w.mem) s) ∧
      items.filterMap Item.pair? = pagePairs W (rt.updateShadow w.mem) pages ∧
      (∃ chunks, items.filterMap Item.alone? = w.mallocPackets W ++ chunks ∧
        ∀ p ∈ chunks, W.IsRoChunk p) ∧
      ∀ p ∈ W.stream w.out (endIter rt wid w).out, p.type = .super → p.isWrite = .roPage →
        Item.alone p ∈ items := by
  have heoi := StageLayout.eoiTest_of_runIteration hw hi hrun
  obtain ⟨pages, items, ms, hnodup, hmem, hstream, hframes, hpairs, halone⟩ :=
    endIter_stream (W := W) hrun heoi
  have hall := (mallocPackets_frames W w).append hframes
  have hrec := hall.receive (eoiPacket_take (W := W) 0xDEADBEEF 0 0) []
  obtain ⟨eoi, hstop, hms⟩ := receive_messages hrec
  have hdone : eoi.type = .done := by
    unfold Packet.take at hstop
    split at hstop
    · cases hstop
    · split at hstop <;> cases hstop
    · assumption
    · cases hstop
  have hpairs' : ((w.mallocPackets W).map Item.alone ++ items).filterMap Item.pair? =
      pagePairs W (rt.updateShadow w.mem) pages := by
    rw [List.filterMap_append, hpairs, List.filterMap_map]
    simp [Function.comp_def, Item.pair?]
  rw [hstream]
  refine ⟨_, pages, eoi, hrec, hms, hdone, hnodup, hmem, hpairs', ⟨_, ?_, halone⟩, ?_⟩
  · rw [List.filterMap_append, List.filterMap_map]
    simp [Function.comp_def, Item.alone?]
  · intro p hp hsuper hro
    rw [hms, List.mem_append, List.mem_singleton] at hp
    rcases hp with hp | rfl
    · obtain ⟨item, hitem, hpi⟩ := List.mem_flatMap.1 hp
      cases item with
      | alone a => rwa [List.mem_singleton.1 hpi]
      | pair a b =>
        -- a pair is one of a forwarded page, which is not a read-only chunk
        have hmem : (a, b) ∈ pagePairs W (rt.updateShadow w.mem) pages := by
          rw [← hpairs']
          exact List.mem_filterMap.2 ⟨_, hitem, rfl⟩
        have hab := pagePairs_isWrite hmem
        simp only [Item.messages, List.mem_cons, List.not_mem_nil, or_false] at hpi
        rcases hpi with rfl | rfl
        · cases hab.1.symm.trans hro
        · cases hab.2.symm.trans hro
    · cases hdone.symm.trans hsuper

/-- Every malloc chunk is one packet. -/
def plainWire : Wire where
  roPageBufferAddr := 2 ^ 45
  mallocPackets elem size := [⟨0, .mallocs elem, size, .free, .alloc⟩]
  eoiPacket ptr size value := ⟨ptr, .event value, size, .free, .done⟩
  mallocPackets_type _ _ p hp := by rw [List.mem_singleton.1 hp]
  eoiPacket_type _ _ _ := rfl

/-- The stages `oneThenTwo`, and no predicted values. -/
def plainRuntime : Runtime := ⟨StageLayout.oneThenTwo, id, id⟩

/-- A worker with one page, in iteration `6`. -/
def onePageWorker (m : Memory) : Worker .shifted where
  mem := m
  out := .init
  shadowGlobals := [onePage]
  shadowStacks := []
  shadowHeaps := []
  verMallocBuffer := ⟨fun _ => ⟨0, 0, 0⟩, 0⟩
  currentIter := 6

theorem endIter_received_onePage :
    ∃ items pages eoi,
      receive Packet.take (plainWire.stream (onePageWorker fun _ => 0x82#8).out
        (endIter plainRuntime 1 (onePageWorker fun _ => 0x82#8)).out) = some (items, []) ∧
      plainWire.stream (onePageWorker fun _ => 0x82#8).out
        (endIter plainRuntime 1 (onePageWorker fun _ => 0x82#8)).out =
          items.flatMap Item.messages ++ [eoi] ∧
      eoi.type = .done ∧
      pages.Nodup ∧ (∀ s, s ∈ pages ↔ s ∈ (onePageWorker fun _ => 0x82#8).shadows ∧
        Marked (plainRuntime.updateShadow fun _ => 0x82#8) s) ∧
      items.filterMap Item.pair? =
        pagePairs plainWire (plainRuntime.updateShadow fun _ => 0x82#8) pages ∧
      (∃ chunks, items.filterMap Item.alone? =
          (onePageWorker fun _ => 0x82#8).mallocPackets plainWire ++ chunks ∧
        ∀ p ∈ chunks, plainWire.IsRoChunk p) ∧
      ∀ p ∈ plainWire.stream (onePageWorker fun _ => 0x82#8).out
        (endIter plainRuntime 1 (onePageWorker fun _ => 0x82#8)).out,
          p.type = .super → p.isWrite = .roPage → Item.alone p ∈ items :=
  endIter_received plainWire (by decide) (by decide) (by decide)

end SpecPriv
