/-
  A worker and a receiver of what it sends, running side by side.

  The worker runs iterations; what `end_iter` sends goes through a queue, packet
  by packet, to a receiver that merges it into its own memory.  The receiver
  may be in the middle of an iteration, or of a pair of packets, while the
  worker is several iterations ahead.

  `replica_follows`: whatever the interleaving, the receiver's copy of a byte of
  a program page is the one of the last iteration that it received completely,
  or of the next one; before the first item of the next one it is the former,
  and bytes outside the program pages are never changed.  This rests on what
  the body of the loop promises: a byte that it changes is recorded in the
  metadata of a page of the worker (`BodyStep`).
-/
import Mathlib.Logic.Relation
import SpecPriv.Lib.Intake
import SpecPriv.Lib.Replica
import SpecPriv.Orig.Frames
import SpecPriv.Orig.Walk
import SpecPriv.Trans.Merge

namespace SpecPriv

open Framing

/-- The bytes of the program pages. -/
def AddressMap.programBytes (am : AddressMap) : Set ℕ :=
  {x | ∃ (t : am.Shadow) (j : ℕ), j < pageSize ∧ x = (am.getOriginalOf t).addr + j}

/-- The write bit. -/
def written (b : Byte) : Bool := b &&& 0x02#8 ≠ 0#8

variable {am : AddressMap}

/-- Byte `j` of the page of `t` is recorded as written, in a page that
    `end_iter` walks over. -/
def Worker.Records (w : Worker am) (t : am.Shadow) (j : ℕ) : Prop :=
  t ∈ w.shadows ∧ touched w.mem t.1.addr ∧ written (w.mem (t.1.addr + j))

/-- What happens to the worker between two calls of `end_iter`: it sends
    nothing, the program bytes that change are recorded, and what is recorded
    stays so. -/
structure BodyStep (w w' : Worker am) : Prop where
  out : w'.out = w.out
  currentIter : w'.currentIter = w.currentIter
  recorded : ∀ (t : am.Shadow) (j : ℕ), j < pageSize →
    w'.mem ((am.getOriginalOf t).addr + j) ≠ w.mem ((am.getOriginalOf t).addr + j) →
      w'.Records t j
  kept : ∀ (t : am.Shadow) (j : ℕ), j < pageSize → w.Records t j → w'.Records t j

/-- The updates of the metadata of predicted values change no data, and keep
    the touched bits and the write bits. -/
structure Runtime.KeepsWrites (rt : Runtime) (am : AddressMap) : Prop where
  data : ∀ m (t : am.Shadow), AgreeOn (rt.updateShadow m) m (am.getOriginalOf t).addr
  touched : ∀ m (t : am.Shadow), touched (rt.updateShadow m) t.1.addr = touched m t.1.addr
  written : ∀ m (t : am.Shadow) (j : ℕ), j < pageSize →
    written (rt.updateShadow m (t.1.addr + j)) = written (m (t.1.addr + j))

/-- A worker, the queue, and a receiver.  `published` lists the memory that the
    worker starts with and those at the ends of the iterations that it owned. -/
structure Channel (am : AddressMap) where
  sender : Worker am
  published : List Memory
  /-- the packets of the last `end_iter` that are not in the queue yet -/
  unsent : List Packet
  queue : List Packet
  intake : Intake Packet
  replica : Receiver

namespace Channel

def start (w : Worker am) (r : Receiver) : Channel am := ⟨w, [w.mem], [], [], .between [], r⟩

/-- What the receiver does with a packet: the second one of a pair is merged
    with the first. -/
def receive (c : Channel am) (p : Packet) : Receiver :=
  match c.intake.waiting with
  | some q => takePair updateByte c.replica (q, p)
  | none => c.replica

inductive Step (W : Wire) (rt : Runtime) (wid : Wid) : Channel am → Channel am → Prop
  | body (c : Channel am) (w : Worker am) (hidle : c.unsent = []) (h : BodyStep c.sender w) :
      Step W rt wid c { c with sender := w }
  | endIter (c : Channel am) (hidle : c.unsent = []) (hi : c.sender.currentIter < 2 ^ 31) :
      Step W rt wid c { c with
        sender := endIter rt wid c.sender
        unsent := W.stream c.sender.out (endIter rt wid c.sender).out
        published := if runIteration rt.layout wid c.sender.currentIter then
          c.published ++ [c.sender.mem] else c.published }
  | put (c : Channel am) (p : Packet) (ps : List Packet) (h : c.unsent = p :: ps) :
      Step W rt wid c { c with unsent := ps, queue := c.queue ++ [p] }
  | take (c : Channel am) (p : Packet) (ps : List Packet) (h : c.queue = p :: ps) :
      Step W rt wid c { c with
        queue := ps
        intake := c.intake.feed Packet.take p
        replica := c.receive p }

end Channel

variable {W : Wire} {rt : Runtime} {wid : Wid} {w w' : Worker am} {m : Memory} {r : Receiver}
  {t : am.Shadow} {j : ℕ} {ps : List (Packet × Packet)} {pages : List am.Shadow}

/-! ## Merging into a memory -/

/-- The effect of a pair on the memory of the receiver. -/
def applyPair (p : Packet × Packet) (m : Memory) : Memory :=
  (takePair updateByte ⟨m, fun _ => 0#8⟩ p).mem

theorem takePair_mem (p : Packet × Packet) (r : Receiver) :
    (takePair updateByte r p).mem = applyPair p r.mem := by
  unfold applyPair takePair
  split <;> rfl

theorem takePairs_mem : ∀ (ps : List (Packet × Packet)) (r : Receiver),
    (takePairs updateByte ps r).mem = Replica.applyAll applyPair ps r.mem
  | [], _ => rfl
  | p :: ps, r => by
    have hrest := takePairs_mem ps (takePair updateByte r p)
    rwa [takePair_mem] at hrest

theorem updateByte_of_written (old data : Byte) : ∀ {b : Byte}, written b →
    updateByte old data b = data := by
  intro b hb
  have hmsb : ∀ b : Byte, written b → (b <<< 6).msb = true := by decide
  rw [updateByte, if_pos (hmsb b hb)]

theorem updateByte_or (old data b : Byte) :
    updateByte old data b = old ∨ updateByte old data b = data := by
  unfold updateByte
  split_ifs
  · exact Or.inr rfl
  · exact Or.inl rfl

theorem mergeBytes_mem_apply {a n : ℕ} {d s : ℕ → Byte} (hj : j < n) :
    (mergeBytes updateByte r a n d s).mem (a + j) = updateByte (r.mem (a + j)) (d j) (s j) :=
  Memory.fill_apply r.mem a n (fun j => updateByte (r.mem (a + j)) (d j) (s j)) hj

theorem mergeBytes_mem_of_not_mem {a n x : ℕ} {d s : ℕ → Byte} (h : x < a ∨ a + n ≤ x) :
    (mergeBytes updateByte r a n d s).mem x = r.mem x :=
  Memory.fill_of_not_mem r.mem a n (fun j => updateByte (r.mem (a + j)) (d j) (s j)) h

theorem updateByte_of_not_written (old data : Byte) : ∀ {b : Byte}, ¬ written b →
    updateByte old data b = old := by
  intro b hb
  have hmsb : ∀ b : Byte, ¬ written b → (b <<< 6).msb = false := by decide
  rw [updateByte, hmsb b hb]
  rfl

/-- Merging bytes goes towards the memory that they are from, where they are
    written. -/
theorem mergeBytes_towards {P : Set ℕ} {a n : ℕ} {d s : ℕ → Byte}
    (h : ∀ j < n, d j = m (a + j) ∧ (written (s j) → a + j ∈ P)) :
    Replica.Towards P m r.mem (mergeBytes updateByte r a n d s).mem := by
  intro x
  by_cases hx : a ≤ x ∧ x < a + n
  · obtain ⟨j, rfl⟩ := Nat.exists_eq_add_of_le hx.1
    obtain ⟨hd, hP⟩ := h j (by omega)
    rw [mergeBytes_mem_apply (by omega), ← hd]
    by_cases hw : written (s j)
    · exact Or.inr ⟨hP hw, updateByte_of_written _ _ hw⟩
    · exact Or.inl (updateByte_of_not_written _ _ hw)
  · exact Or.inl (mergeBytes_mem_of_not_mem (by omega))

theorem mem_programBytes (t : am.Shadow) (hj : j < pageSize) :
    (am.getOriginalOf t).addr + j ∈ am.programBytes :=
  ⟨t, j, hj, rfl⟩

theorem clearTouched_original (t : am.Shadow) (hj : j < pageSize) :
    clearTouched m t.1.addr ((am.getOriginalOf t).addr + j) = m ((am.getOriginalOf t).addr + j) :=
  clearTouched_other (original_ne t t) hj

/-- A word with metadata is one of the words of the page. -/
theorem exists_of_mem_markedWords {mem shadow n : ℕ} {x : ℕ × BitVec 64 × BitVec 64}
    (h : x ∈ markedWords m mem shadow n) : ∃ k < n,
      x = (mem + 8 * k, load64 m (mem + 8 * k), load64 m (shadow + 8 * k)) := by
  obtain ⟨k, hk, rfl⟩ := List.mem_map.1 h
  exact ⟨k, List.mem_range.1 (List.mem_filter.1 hk).1, rfl⟩

/-- Every pair that is sent goes towards the memory that it is from, where the
    pages are written. -/
theorem applyPair_towards {P : Set ℕ} {p : Packet × Packet} (hp : p ∈ pagePairs W m pages)
    (hP : ∀ t ∈ pages, ∀ j < pageSize, written (clearTouched m t.1.addr (t.1.addr + j)) →
      (am.getOriginalOf t).addr + j ∈ P) (m' : Memory) :
    Replica.Towards P m m' (applyPair p m') := by
  obtain ⟨t, ht, hpt⟩ := List.mem_flatMap.1 hp
  have hsize : pageSize = 8 * (pageSize / 8) := rfl
  unfold parcelOf parcel at hpt
  split_ifs at hpt
  · cases hpt
  · -- the page as a whole
    obtain rfl := List.mem_singleton.1 hpt
    refine mergeBytes_towards (a := (am.getOriginalOf t).addr) ?_
    intro j hj
    rw [snapshot_get hj, snapshot_get hj, clearTouched_original t hj]
    exact ⟨rfl, hP t ht j hj⟩
  · -- a word of the page
    obtain ⟨x, hx, rfl⟩ := List.mem_map.1 hpt
    obtain ⟨k, hk, rfl⟩ := exists_of_mem_markedWords hx
    refine mergeBytes_towards (a := (am.getOriginalOf t).addr + 8 * k) ?_
    intro j hj
    have hkj : 8 * k + j < pageSize := by omega
    dsimp only
    rw [lane_load64 _ hj, lane_load64 _ hj, Nat.add_assoc, Nat.add_assoc]
    exact ⟨clearTouched_original t hkj, hP t ht _ hkj⟩

theorem mergePage_mem_other {s : am.Shadow} (h : s ≠ t) (hj : j < pageSize) {m : Memory} :
    (mergePage updateByte r m (am.getOriginalOf s).addr s.1.addr).mem
      ((am.getOriginalOf t).addr + j) = r.mem ((am.getOriginalOf t).addr + j) := by
  refine mergeBytes_mem_of_not_mem ?_
  have hne : am.getOriginalOf s ≠ am.getOriginalOf t := by
    intro heq
    exact h (am.injective heq)
  rcases Page.disjoint hne with hd | hd
  · right
    omega
  · left
    omega

/-- What the pairs of a page do to a byte of a page. -/
theorem parcelOf_mem {s : am.Shadow} (hj : j < pageSize) :
    (takePairs updateByte ((parcelOf m s).pairs W .required) r).mem
      ((am.getOriginalOf t).addr + j) =
    if t = s ∧ ¬ ReadonlyPage (clearTouched m s.1.addr) s.1.addr then
      updateByte (r.mem ((am.getOriginalOf t).addr + j)) (m ((am.getOriginalOf t).addr + j))
        (clearTouched m t.1.addr (t.1.addr + j))
    else r.mem ((am.getOriginalOf t).addr + j) := by
  -- what the receiver knows of earlier metadata does not matter
  rw [takePairs_mem, show r.mem = (⟨r.mem, fun _ => 0#8⟩ : Receiver).mem from rfl, ← takePairs_mem]
  by_cases hro : ReadonlyPage (clearTouched m s.1.addr) s.1.addr
  · rw [parcelOf, parcel, if_pos hro, if_neg fun h => h.2 hro]
    rfl
  · rw [parcelOf, parcel_applied updateByte_zero (fun _ _ => rfl) hro]
    by_cases hts : t = s
    · subst hts
      rw [if_pos ⟨rfl, hro⟩, mergePage, mergeBytes_mem_apply hj]
      simp only [clearTouched_original t hj]
    · rw [if_neg fun h => hts h.1, mergePage_mem_other (Ne.symm hts) hj]

/-- What the pairs of some pages do to a byte of a page. -/
theorem pagePairs_mem (hj : j < pageSize) : ∀ {pages : List am.Shadow} {r : Receiver},
    pages.Nodup →
      (takePairs updateByte (pagePairs W m pages) r).mem ((am.getOriginalOf t).addr + j) =
        if t ∈ pages ∧ ¬ ReadonlyPage (clearTouched m t.1.addr) t.1.addr then
          updateByte (r.mem ((am.getOriginalOf t).addr + j)) (m ((am.getOriginalOf t).addr + j))
            (clearTouched m t.1.addr (t.1.addr + j))
        else r.mem ((am.getOriginalOf t).addr + j)
  | [], r, _ => by simp [pagePairs, takePairs]
  | s :: pages, r, hnd => by
    obtain ⟨hs, hnd⟩ := List.nodup_cons.1 hnd
    have hpairs : pagePairs W m (s :: pages) = (parcelOf m s).pairs W .required ++
        pagePairs W m pages := by
      rw [pagePairs, List.flatMap_cons, pagePairs]
    rw [hpairs, takePairs_append, pagePairs_mem hj hnd, parcelOf_mem hj]
    by_cases hts : t = s
    · subst hts
      rw [if_neg fun h => hs h.1]
      simp only [List.mem_cons, true_or, true_and]
    · simp only [hts, false_and, if_false, List.mem_cons, false_or]

/-! ## One iteration -/

theorem written_clearTouched (m : Memory) (a x : ℕ) :
    written (clearTouched m a x) = written (m x) := by
  have hbit : ∀ b : Byte, written (b &&& 0x7f#8) = written b := by decide
  rw [clearTouched, Function.update_apply]
  split_ifs with h
  · rw [hbit, h]
  · rfl

/-- A byte that is recorded is sent. -/
theorem Worker.Records.marked (hrt : rt.KeepsWrites am) (hj : j < pageSize)
    (h : w.Records t j) : Marked (rt.updateShadow w.mem) t ∧
      written (clearTouched (rt.updateShadow w.mem) t.1.addr (t.1.addr + j)) := by
  obtain ⟨-, htouched, hwritten⟩ := h
  have hw : written (clearTouched (rt.updateShadow w.mem) t.1.addr (t.1.addr + j)) := by
    rw [written_clearTouched, hrt.written _ _ _ hj]
    exact hwritten
  refine ⟨⟨?_, ?_⟩, hw⟩
  · rw [hrt.touched]
    exact htouched
  · intro hz
    rw [isZeroPage_iff.1 hz j hj] at hw
    exact absurd hw (by decide)

/-- A page with a written byte was not only read. -/
theorem not_readonly_of_written {a : ℕ} (hj : j < pageSize) (h : written (m (a + j))) :
    ¬ ReadonlyPage m a := by
  have hbit : ∀ b : Byte, b &&& 0xfb#8 = 0#8 → ¬ written b := by decide
  intro hro
  exact hbit _ (hro j hj) h

/-- **The pairs of an iteration bring the receiver to the memory of its end.** -/
theorem pagePairs_brings (W : Wire) (hrt : rt.KeepsWrites am) (hnd : pages.Nodup)
    (hpages : ∀ s, s ∈ pages ↔ s ∈ w.shadows ∧ Marked (rt.updateShadow w.mem) s)
    (hrec : ∀ (t : am.Shadow) (j : ℕ), j < pageSize →
      w.mem ((am.getOriginalOf t).addr + j) ≠ m ((am.getOriginalOf t).addr + j) → w.Records t j) :
    Replica.Brings applyPair am.programBytes m w.mem (pagePairs W (rt.updateShadow w.mem) pages)
    where
  towards := by
    intro p hp m' x
    have htowards := applyPair_towards (P := am.programBytes) hp
      (fun t _ j hj _ => mem_programBytes t hj) m'
    rcases htowards x with hold | ⟨⟨t, j, hj, rfl⟩, hnew⟩
    · exact Or.inl hold
    · exact Or.inr ⟨mem_programBytes t hj, hnew.trans (hrt.data w.mem t j hj)⟩
  complete := by
    rintro r hr _ ⟨t, j, hj, rfl⟩
    have hmem := takePairs_mem (pagePairs W (rt.updateShadow w.mem) pages) ⟨r, fun _ => 0#8⟩
    have hdata := hrt.data w.mem t j hj
    have hrm : r ((am.getOriginalOf t).addr + j) = m ((am.getOriginalOf t).addr + j) :=
      hr (mem_programBytes t hj)
    rw [← hmem, pagePairs_mem hj hnd, hdata]
    simp only [hrm]
    by_cases hsame : w.mem ((am.getOriginalOf t).addr + j) = m ((am.getOriginalOf t).addr + j)
    · -- nothing changed, so it does not matter whether the byte is written
      rw [hsame]
      split_ifs
      · rcases updateByte_or (m ((am.getOriginalOf t).addr + j))
          (m ((am.getOriginalOf t).addr + j))
          (clearTouched (rt.updateShadow w.mem) t.1.addr (t.1.addr + j)) with h | h <;> exact h
      · rfl
    · have hrecords := hrec t j hj hsame
      obtain ⟨hmarked, hwritten⟩ := hrecords.marked hrt hj
      rw [if_pos ⟨(hpages t).2 ⟨hrecords.1, hmarked⟩, not_readonly_of_written hj hwritten⟩,
        updateByte_of_written _ _ hwritten]

/-- `end_iter` changes no data. -/
theorem endIter_data (hrt : rt.KeepsWrites am) (t : am.Shadow) (hj : j < pageSize) :
    (endIter rt wid w).mem ((am.getOriginalOf t).addr + j) =
      w.mem ((am.getOriginalOf t).addr + j) := by
  by_cases hrun : runIteration rt.layout wid w.currentIter
  · have hmem : (endIter rt wid w).mem = wipe (rt.updateShadow w.mem) w.shadows :=
      (endIter_eq hrun).1
    rw [hmem, ← hrt.data w.mem t j hj]
    refine wipe_of_not_mem ?_ j hj
    intro s _ _
    exact (original_ne t s).symm
  · have hmem : (endIter rt wid w).mem = w.mem := by
      simp only [endIter, if_neg hrun]
      split_ifs <;> rfl
    rw [hmem]

/-- The receiver gets the pairs of the iteration and is at the end of it. -/
theorem feedAll_endIter (W : Wire) (hw : wid.toNat < rt.layout.numWorkers)
    (hi : w.currentIter < 2 ^ 31) (hrun : runIteration rt.layout wid w.currentIter)
    (streams : List (List (Item Packet))) : ∃ items pages,
      Intake.feedAll Packet.take (.between streams) (W.stream w.out (endIter rt wid w).out) =
        .between (streams ++ [items]) ∧
      pages.Nodup ∧ (∀ s, s ∈ pages ↔ s ∈ w.shadows ∧ Marked (rt.updateShadow w.mem) s) ∧
      items.filterMap Item.pair? = pagePairs W (rt.updateShadow w.mem) pages := by
  have heoi := StageLayout.eoiTest_of_runIteration hw hi hrun
  obtain ⟨pages, items, ms, hnodup, hmem, hstream, hframes, hpairs, -⟩ :=
    endIter_stream (W := W) hrun heoi
  have hall := (mallocPackets_frames W w).append hframes
  have hrec := hall.receive (eoiPacket_take (W := W) 0xDEADBEEF 0 0) []
  refine ⟨(w.mallocPackets W).map .alone ++ items, pages, ?_, hnodup, hmem, ?_⟩
  · rw [hstream]
    have hfeed := Intake.feedAll_receive streams [] hrec
    simpa [Intake.between, Intake.feedAll] using hfeed
  · rw [List.filterMap_append, hpairs, List.filterMap_map]
    simp [Function.comp_def, Item.pair?]

/-! ## Runs -/

/-- What holds of a channel, whatever its receiver had: `taken` are the packets
    that the receiver took, `streams` the items of all that was sent. -/
structure Channel.Orderly (c : Channel am) (taken : List Packet)
    (streams : List (List (Item Packet))) : Prop where
  intake : Intake.feedAll Packet.take (.between []) taken = c.intake
  sent : Intake.feedAll Packet.take (.between []) (taken ++ c.queue ++ c.unsent) = .between streams
  chain : Replica.Chain applyPair am.programBytes c.published
    (streams.map fun items => items.filterMap Item.pair?)
  recorded : ∃ m, c.published.getLast? = some m ∧ ∀ (t : am.Shadow) (j : ℕ), j < pageSize →
    c.sender.mem ((am.getOriginalOf t).addr + j) ≠ m ((am.getOriginalOf t).addr + j) →
      c.sender.Records t j

namespace Channel

variable {c c' : Channel am} {taken : List Packet} {streams : List (List (Item Packet))}

theorem start_orderly (w : Worker am) (r : Receiver) : (start w r).Orderly [] [] where
  intake := rfl
  sent := rfl
  chain := .one w.mem
  recorded := by
    refine ⟨w.mem, rfl, ?_⟩
    intro t j _ hne
    exact absurd rfl hne

theorem receive_mem (c : Channel am) (p : Packet) : (c.receive p).mem =
    Replica.applyAll applyPair (c.intake.waiting.map fun q => (q, p)).toList c.replica.mem := by
  unfold receive
  cases c.intake.waiting with
  | none => rfl
  | some q => exact takePair_mem (q, p) c.replica

theorem Orderly.body (h : c.Orderly taken streams) {w : Worker am} (hw : BodyStep c.sender w) :
    Orderly { c with sender := w } taken streams where
  intake := h.intake
  sent := h.sent
  chain := h.chain
  recorded := by
    obtain ⟨m, hm, hrec⟩ := h.recorded
    refine ⟨m, hm, ?_⟩
    intro t j hj hne
    by_cases hold : c.sender.mem ((am.getOriginalOf t).addr + j) =
        m ((am.getOriginalOf t).addr + j)
    · refine hw.recorded t j hj ?_
      rwa [hold]
    · exact hw.kept t j hj (hrec t j hj hold)

theorem Orderly.put (h : c.Orderly taken streams) {p : Packet} {ps : List Packet}
    (hp : c.unsent = p :: ps) :
    Orderly { c with unsent := ps, queue := c.queue ++ [p] } taken streams where
  intake := h.intake
  sent := by
    have hsent := h.sent
    rw [hp] at hsent
    simpa using hsent
  chain := h.chain
  recorded := h.recorded

theorem Orderly.take (h : c.Orderly taken streams) {p : Packet} {ps : List Packet}
    (hp : c.queue = p :: ps) :
    Orderly { c with queue := ps, intake := c.intake.feed Packet.take p, replica := c.receive p }
      (taken ++ [p]) streams where
  intake := by rw [Intake.feedAll_concat, h.intake]
  sent := by
    have hsent := h.sent
    rw [hp] at hsent
    simpa using hsent
  chain := h.chain
  recorded := h.recorded

/-- An iteration of the worker adds one stream, with the pairs of its pages. -/
theorem Orderly.endIter_owned (h : c.Orderly taken streams) (hrt : rt.KeepsWrites am)
    (hw : wid.toNat < rt.layout.numWorkers) (hidle : c.unsent = [])
    (hi : c.sender.currentIter < 2 ^ 31)
    (hrun : runIteration rt.layout wid c.sender.currentIter) :
    ∃ items pages, (∀ s, s ∈ pages ↔ s ∈ c.sender.shadows ∧
        Marked (rt.updateShadow c.sender.mem) s) ∧
      items.filterMap Item.pair? = pagePairs W (rt.updateShadow c.sender.mem) pages ∧
      Orderly { c with
        sender := SpecPriv.endIter rt wid c.sender
        unsent := W.stream c.sender.out (SpecPriv.endIter rt wid c.sender).out
        published := c.published ++ [c.sender.mem] } taken (streams ++ [items]) := by
  have hsent := h.sent
  rw [hidle, List.append_nil] at hsent
  obtain ⟨items, pages, hfeed, hnd, hpages, hpairs⟩ := feedAll_endIter W hw hi hrun streams
  obtain ⟨m, hm, hrec⟩ := h.recorded
  have hbrings := pagePairs_brings W hrt hnd hpages hrec
  refine ⟨items, pages, hpages, hpairs, h.intake, ?_, ?_, ?_⟩
  · dsimp only
    rw [Intake.feedAll_append, hsent, hfeed]
  · rw [List.map_append, List.map_singleton, hpairs]
    exact h.chain.concat hm hbrings
  · refine ⟨c.sender.mem, by simp, ?_⟩
    intro t j hj hne
    exact absurd (endIter_data hrt t hj) hne

/-- An iteration of another worker sends nothing. -/
theorem Orderly.endIter_other (h : c.Orderly taken streams)
    (hw : wid.toNat < rt.layout.numWorkers) (hidle : c.unsent = [])
    (hi : c.sender.currentIter < 2 ^ 31)
    (hrun : ¬ runIteration rt.layout wid c.sender.currentIter) :
    Orderly { c with
      sender := SpecPriv.endIter rt wid c.sender
      unsent := W.stream c.sender.out (SpecPriv.endIter rt wid c.sender).out } taken streams := by
  have hother := SpecPriv.endIter_other hw hi hrun
  have hsent := h.sent
  rw [hidle, List.append_nil] at hsent
  refine ⟨h.intake, ?_, h.chain, ?_⟩
  · simpa [hother, Wire.stream] using hsent
  · rw [hother]
    exact h.recorded

/-- One step: a stream that is new has the pairs of the pages of the worker. -/
theorem Orderly.step (h : c.Orderly taken streams) (hrt : rt.KeepsWrites am)
    (hw : wid.toNat < rt.layout.numWorkers) (hstep : Step W rt wid c c') :
    ∃ taken' streams', c'.Orderly taken' streams' ∧ ∀ items ∈ streams', items ∈ streams ∨
      ∃ pages, (∀ s, s ∈ pages ↔ s ∈ c.sender.shadows ∧
          Marked (rt.updateShadow c.sender.mem) s) ∧
        items.filterMap Item.pair? = pagePairs W (rt.updateShadow c.sender.mem) pages := by
  cases hstep with
  | body w _ hbody => exact ⟨taken, streams, h.body hbody, fun _ => Or.inl⟩
  | endIter hidle hi =>
    by_cases hrun : runIteration rt.layout wid c.sender.currentIter
    · obtain ⟨items, pages, hpages, hpairs, h'⟩ := h.endIter_owned (W := W) hrt hw hidle hi hrun
      rw [if_pos hrun]
      refine ⟨taken, streams ++ [items], h', ?_⟩
      intro items' hitems'
      rcases List.mem_append.1 hitems' with hold | hnew
      · exact Or.inl hold
      · obtain rfl := List.mem_singleton.1 hnew
        exact Or.inr ⟨pages, hpages, hpairs⟩
    · rw [if_neg hrun]
      exact ⟨taken, streams, h.endIter_other hw hidle hi hrun, fun _ => Or.inl⟩
  | put p ps hp => exact ⟨taken, streams, h.put hp, fun _ => Or.inl⟩
  | take p ps hp => exact ⟨taken ++ [p], streams, h.take hp, fun _ => Or.inl⟩

/-- A step merges the pair that it completes, if any. -/
theorem Step.replica (hstep : Step W rt wid c c') : ∃ ps, c'.intake.pairs = c.intake.pairs ++ ps ∧
    c'.replica.mem = Replica.applyAll applyPair ps c.replica.mem := by
  cases hstep with
  | body | endIter | put => exact ⟨[], (List.append_nil _).symm, rfl⟩
  | take p ps hp => exact ⟨_, Intake.feed_pairs, receive_mem c p⟩

theorem orderly_of_reachable (hrt : rt.KeepsWrites am) (hw : wid.toNat < rt.layout.numWorkers)
    (h : Relation.ReflTransGen (Step W rt wid) (start w r) c) :
    (∃ taken streams, c.Orderly taken streams) ∧
      c.replica.mem = Replica.applyAll applyPair c.intake.pairs r.mem := by
  induction h with
  | refl => exact ⟨⟨[], [], start_orderly w r⟩, rfl⟩
  | tail _ hstep ih =>
    obtain ⟨⟨taken, streams, hc⟩, hreplica⟩ := ih
    obtain ⟨ps, hpairs, hmem⟩ := hstep.replica
    obtain ⟨taken', streams', hc', -⟩ := hc.step hrt hw hstep
    refine ⟨⟨taken', streams', hc'⟩, ?_⟩
    rw [hmem, hreplica, hpairs, Replica.applyAll_append]

theorem Step.head? (hstep : Step W rt wid c c') (h : c.published.head? = some m) :
    c'.published.head? = some m := by
  cases hstep with
  | body | put | take => exact h
  | endIter =>
    dsimp only
    split_ifs
    · rw [List.head?_append, h]
      rfl
    · exact h

/-- The memory that the worker started with is the first one published. -/
theorem head?_published (h : Relation.ReflTransGen (Step W rt wid) (start w r) c) :
    c.published.head? = some w.mem := by
  induction h with
  | refl => rfl
  | tail _ hstep ih => exact hstep.head? ih

/-- What the receiver took is the beginning of what was sent. -/
theorem Orderly.taken_initial (hc : c.Orderly taken streams) : c.intake.ended <+: streams ∧
    c.intake.items <+: (streams[c.intake.ended.length]?).getD [] := by
  have hpre : taken <+: taken ++ c.queue ++ c.unsent := by
    rw [List.append_assoc]
    exact List.prefix_append _ _
  have hended := Intake.feedAll_ended hc.sent hpre
  have hitems := Intake.feedAll_items hc.sent hpre
  rw [hc.intake] at hended hitems
  exact ⟨hended, hitems⟩

/-- A pair that the receiver has is one of those that were sent. -/
theorem Orderly.mem_pairs (hc : c.Orderly taken streams) {p : Packet × Packet}
    (hp : p ∈ c.intake.pairs) : ∃ items ∈ streams, p ∈ items.filterMap Item.pair? := by
  obtain ⟨hended, hitems⟩ := hc.taken_initial
  rw [Intake.pairs, List.filterMap_append, List.filterMap_flatten, List.mem_append] at hp
  rcases hp with hp | hp
  · obtain ⟨ps, hps, hp⟩ := List.mem_flatten.1 hp
    obtain ⟨items, hmem, rfl⟩ := List.mem_map.1 hps
    exact ⟨items, hended.subset hmem, hp⟩
  · cases hnext : streams[c.intake.ended.length]? with
    | none =>
      rw [hnext] at hitems
      rw [List.prefix_nil.1 hitems] at hp
      cases hp
    | some items =>
      rw [hnext] at hitems
      exact ⟨items, List.mem_of_getElem? hnext, (hitems.filterMap Item.pair?).subset hp⟩

/-- The pairs that the receiver has are whole batches, and the beginning of the
    next one. -/
theorem Orderly.batches (hc : c.Orderly taken streams) :
    let batches := streams.map fun items => items.filterMap Item.pair?
    let done := c.intake.ended.map fun items => items.filterMap Item.pair?
    let part := c.intake.items.filterMap Item.pair?
    done <+: batches ∧ part <+: (batches[done.length]?).getD [] ∧
      c.intake.pairs = done.flatten ++ part := by
  intro batches done part
  obtain ⟨hended, hitems⟩ := hc.taken_initial
  refine ⟨hended.map _, ?_, ?_⟩
  · rw [List.length_map, List.getElem?_map]
    cases hnext : streams[c.intake.ended.length]? with
    | none =>
      rw [hnext] at hitems
      exact hitems.filterMap Item.pair?
    | some items =>
      rw [hnext] at hitems
      exact hitems.filterMap Item.pair?
  · rw [Intake.pairs, List.filterMap_append, List.filterMap_flatten]

/-- The pairs that the receiver has bring a copy of the first version to the
    version of the last iteration that it received, or on the way to the next
    one. -/
theorem Orderly.versions (hc : c.Orderly taken streams) {r : Memory}
    (hr : ∀ m ∈ c.published.head?, Set.EqOn r m am.programBytes) :
    let r' := Replica.applyAll applyPair c.intake.pairs r
    ∃ m, c.published[c.intake.ended.length]? = some m ∧
      (∀ x ∈ am.programBytes, r' x = m x ∨
        ∃ m', c.published[c.intake.ended.length + 1]? = some m' ∧ r' x = m' x) ∧
      (c.intake.items = [] → Set.EqOn r' m am.programBytes) := by
  obtain ⟨hdone, hpart, hall⟩ := hc.batches
  obtain ⟨m, hm, hbetween, hexact⟩ := hc.chain.follows hr hdone hpart
  rw [← hall] at hbetween hexact
  rw [List.length_map] at hm hbetween
  refine ⟨m, hm, hbetween, ?_⟩
  intro hnil
  refine hexact ?_
  rw [hnil]
  rfl

/-- They change program bytes only. -/
theorem Orderly.outside (hc : c.Orderly taken streams) (r : Memory) {x : ℕ}
    (hx : x ∉ am.programBytes) : Replica.applyAll applyPair c.intake.pairs r x = r x := by
  obtain ⟨hdone, hpart, hall⟩ := hc.batches
  rw [hall]
  exact hc.chain.outside hdone hpart hx

/-- When everything was received, the receiver got to the last version. -/
theorem Orderly.drained (hc : c.Orderly taken streams) (hqueue : c.queue = [])
    (hunsent : c.unsent = []) : c.intake.ended.length + 1 = c.published.length := by
  have hsent := hc.sent
  rw [hqueue, hunsent, List.append_nil, List.append_nil, hc.intake] at hsent
  have hlen := hc.chain.length_eq
  rw [hsent, hlen, List.length_map]
  rfl

/-- **The receiver follows the worker**, whatever the interleaving, if its writes
    are recorded in the metadata and the receiver starts with its bytes. -/
theorem replica_follows (hrt : rt.KeepsWrites am) (hw : wid.toNat < rt.layout.numWorkers)
    (hr : Set.EqOn r.mem w.mem am.programBytes)
    (h : Relation.ReflTransGen (Step W rt wid) (start w r) c) :
    ∃ m, c.published[c.intake.ended.length]? = some m ∧
      (∀ x ∈ am.programBytes, c.replica.mem x = m x ∨
        ∃ m', c.published[c.intake.ended.length + 1]? = some m' ∧ c.replica.mem x = m' x) ∧
      (c.intake.items = [] → Set.EqOn c.replica.mem m am.programBytes) ∧
      (∀ x ∉ am.programBytes, c.replica.mem x = r.mem x) ∧
      (c.queue = [] → c.unsent = [] → c.intake.ended.length + 1 = c.published.length) := by
  obtain ⟨⟨taken, streams, hc⟩, hreplica⟩ := orderly_of_reachable hrt hw h
  have hstart : ∀ m ∈ c.published.head?, Set.EqOn r.mem m am.programBytes := by
    intro m hm
    obtain rfl : w.mem = m := Option.some.inj ((head?_published h).symm.trans hm)
    exact hr
  obtain ⟨m, hm, hbetween, hexact⟩ := hc.versions hstart
  rw [← hreplica] at hbetween hexact
  refine ⟨m, hm, hbetween, hexact, ?_, hc.drained⟩
  intro x hx
  rw [hreplica]
  exact hc.outside r.mem hx

theorem plainRuntime_keepsWrites : plainRuntime.KeepsWrites am where
  data _ _ _ _ := rfl
  touched _ _ := rfl
  written _ _ _ _ := rfl

/-- The first byte of the page of `onePage` has been written. -/
def writtenMemory : Memory := fun x =>
  if x = pageSize then 7#8 else if x = onePage.1.addr then 0x82#8 else 0#8

/-- The body writes a byte of the page. -/
theorem bodyStep_writtenMemory :
    BodyStep (onePageWorker fun _ => 0#8) (onePageWorker writtenMemory) where
  out := rfl
  currentIter := rfl
  recorded := by
    intro t j hj hne
    have hlo : 2 ^ 46 + pageSize ≤ t.1.addr := t.2.1
    have hhi : t.1.addr < 2 ^ 47 := t.2.2
    have horig : (AddressMap.shifted.getOriginalOf t).addr = t.1.addr - 2 ^ 46 := rfl
    have hshadow : onePage.1.addr = 2 ^ 46 + pageSize := rfl
    have hsize : pageSize = 4096 := rfl
    by_cases hx : (AddressMap.shifted.getOriginalOf t).addr + j = pageSize
    · -- the only page with this byte is that of `onePage`
      have haddr : t.1.addr = onePage.1.addr := by omega
      obtain rfl : t = onePage := Subtype.ext (Page.ext_addr haddr)
      obtain rfl : j = 0 := by omega
      have hbyte : writtenMemory onePage.1.addr = 0x82#8 := by
        rw [writtenMemory, if_neg (by omega), if_pos rfl]
      refine ⟨by simp [onePageWorker, Worker.shadows], ?_, ?_⟩
      · show touched writtenMemory onePage.1.addr
        rw [touched, hbyte]
        decide
      · show written (writtenMemory onePage.1.addr)
        rw [hbyte]
        decide
    · refine absurd ?_ hne
      show writtenMemory ((AddressMap.shifted.getOriginalOf t).addr + j) = 0#8
      rw [writtenMemory, if_neg hx, if_neg (by omega)]
  kept := by
    rintro t j - ⟨-, htouched, -⟩
    simp [onePageWorker, touched] at htouched

/-- The worker wrote the byte and ended the iteration; nothing is received
    yet. -/
theorem replica_follows_writtenMemory :
    let w := onePageWorker writtenMemory
    let r : Receiver := ⟨fun _ => 0#8, fun _ => 0#8⟩
    let c : Channel .shifted := { start (onePageWorker fun _ => 0#8) r with
      sender := SpecPriv.endIter plainRuntime 1 w
      unsent := plainWire.stream w.out (SpecPriv.endIter plainRuntime 1 w).out
      published := [fun _ => 0#8, writtenMemory] }
    ∃ m, c.published[c.intake.ended.length]? = some m ∧
      (∀ x ∈ AddressMap.shifted.programBytes, c.replica.mem x = m x ∨
        ∃ m', c.published[c.intake.ended.length + 1]? = some m' ∧ c.replica.mem x = m' x) ∧
      (c.intake.items = [] → Set.EqOn c.replica.mem m AddressMap.shifted.programBytes) ∧
      (∀ x ∉ AddressMap.shifted.programBytes, c.replica.mem x = r.mem x) ∧
      (c.queue = [] → c.unsent = [] → c.intake.ended.length + 1 = c.published.length) := by
  intro w r c
  have hbody := @Step.body _ plainWire plainRuntime 1 (start (onePageWorker fun _ => 0#8) r) w rfl
    bodyStep_writtenMemory
  have hend := @Step.endIter _ plainWire plainRuntime 1
    { start (onePageWorker fun _ => 0#8) r with sender := w } rfl (by decide)
  have howned : runIteration plainRuntime.layout 1 w.currentIter := by decide
  rw [if_pos howned] at hend
  exact replica_follows plainRuntime_keepsWrites (by decide) (fun _ _ => rfl)
    ((Relation.ReflTransGen.single hbody).tail hend)

end Channel

end SpecPriv
