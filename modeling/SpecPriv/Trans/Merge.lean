/-
  The receiver of pages and words.

  A receiver takes the data and the metadata of a page, or of a word, and
  merges them into its own memory, byte by byte, with a function of the old
  byte, the new byte and its metadata.  A byte without metadata is to be left
  as it is (`update_page` writes the bytes with the write bit only).

  * `parcel_applied`: whatever the parcel of a page is, what the receiver has
    in the end is the page merged as a whole;
  * `forwardPair_paths_agree`: so the two ways of `forward_pair` to send a
    page are interchangeable.
-/
import SpecPriv.Trans.Receive

namespace SpecPriv

open Framing Words

/-- The memory of a receiver, and the metadata received for it. -/
structure Receiver where
  mem : Memory
  metadata : Memory

/-- How a byte is merged, from the old byte, the data and the metadata. -/
abbrev MergeFn := Byte → Byte → Byte → Byte

/-- `update_page` on a byte: the write bit, moved to the sign bit of the mask,
    selects the bytes to write. -/
def updateByte : MergeFn := fun old data metadata =>
  if (metadata <<< 6).msb then data else old

variable (f : MergeFn)

/-- Merge `n` bytes with their metadata into the memory at `a`. -/
def mergeBytes (r : Receiver) (a n : ℕ) (data metadata : ℕ → Byte) : Receiver where
  mem := r.mem.fill a n fun j => f (r.mem (a + j)) (data j) (metadata j)
  metadata := r.metadata.fill a n metadata

/-- The bytes of a copied page. -/
def PageBytes.get (c : PageBytes) (j : ℕ) : Byte := if h : j < pageSize then c ⟨j, h⟩ else 0#8

/-- Take a packet with its shadow. -/
def takePair (r : Receiver) (p : Packet × Packet) : Receiver :=
  match p.1.value, p.2.value with
  | .word d, .word s => mergeBytes f r p.1.ptr 8 (lane 8 d) (lane 8 s)
  | .page d, .page s => mergeBytes f r p.1.ptr pageSize d.get s.get
  | _, _ => r

def takePairs (ps : List (Packet × Packet)) (r : Receiver) : Receiver := ps.foldl (takePair f) r

/-- Merge the page at `mem`, with the metadata in `shadow`, as a whole. -/
def mergePage (r : Receiver) (m : Memory) (mem shadow : ℕ) : Receiver :=
  mergeBytes f r mem pageSize (fun j => m (mem + j)) (fun j => m (shadow + j))

variable {f} {W : Wire} {wid : Wid} {iter : ℕ} {check : Check} {m : Memory} {mem shadow : ℕ}
  {r : Receiver}

theorem takePairs_append (ps qs : List (Packet × Packet)) :
    takePairs f (ps ++ qs) r = takePairs f qs (takePairs f ps r) :=
  List.foldl_append

theorem updateByte_zero (old data : Byte) : updateByte old data 0#8 = old := rfl

/-! ## Merging in parts -/

theorem mergeBytes_congr {a n : ℕ} {d d' s s' : ℕ → Byte} (hd : ∀ j < n, d j = d' j)
    (hs : ∀ j < n, s j = s' j) : mergeBytes f r a n d s = mergeBytes f r a n d' s' := by
  have hmem : ∀ j < n, f (r.mem (a + j)) (d j) (s j) = f (r.mem (a + j)) (d' j) (s' j) := by
    intro j hj
    rw [hd j hj, hs j hj]
  rw [mergeBytes, mergeBytes, Memory.fill_congr r.metadata a hs, Memory.fill_congr r.mem a hmem]

/-- Two adjacent parts are merged one after the other or at once. -/
theorem mergeBytes_append (a k n : ℕ) (d s : ℕ → Byte) :
    mergeBytes f (mergeBytes f r a k d s) (a + k) n (fun j => d (k + j)) (fun j => s (k + j)) =
      mergeBytes f r a (k + n) d s := by
  rw [mergeBytes, mergeBytes, mergeBytes, Memory.fill_append]
  congr 1
  rw [← Memory.fill_append]
  refine Memory.fill_congr _ _ ?_
  intro j hj
  dsimp only
  rw [Memory.fill_of_not_mem _ _ _ _ (by omega), Nat.add_assoc]

/-- Bytes without metadata are left as they are. -/
theorem mergeBytes_zero (hf : ∀ old d, f old d 0#8 = old) {a n : ℕ} {d s : ℕ → Byte}
    (hs : ∀ j < n, s j = 0#8) (hr : ∀ j < n, r.metadata (a + j) = 0#8) :
    mergeBytes f r a n d s = r := by
  have hself (m : Memory) (g : ℕ → Byte) (h : ∀ j < n, g j = m (a + j)) : m.fill a n g = m := by
    funext x
    by_cases hx : a ≤ x ∧ x < a + n
    · obtain ⟨j, rfl⟩ := Nat.exists_eq_add_of_le hx.1
      rw [Memory.fill_apply _ _ _ _ (by omega), h j (by omega)]
    · exact Memory.fill_of_not_mem _ _ _ _ (by omega)
  rw [mergeBytes, hself r.mem, hself r.metadata]
  · intro j hj
    rw [hs j hj, hr j hj]
  · intro j hj
    rw [hs j hj, hf]

theorem mergeBytes_metadata_of_not_mem {a n x : ℕ} {d s : ℕ → Byte} (h : x < a ∨ a + n ≤ x) :
    (mergeBytes f r a n d s).metadata x = r.metadata x :=
  Memory.fill_of_not_mem _ _ _ _ h

/-! ## Words and pages -/

/-- The packets of the words with metadata merge the page, word by word. -/
theorem takePairs_words (hf : ∀ old d, f old d 0#8 = old) (n : ℕ)
    (hr : ∀ j < 8 * n, r.metadata (mem + j) = 0#8) :
    takePairs f ((Parcel.words (markedWords m mem shadow n)).pairs W check) r =
      mergeBytes f r mem (8 * n) (fun j => m (mem + j)) (fun j => m (shadow + j)) := by
  induction n with
  | zero => exact (mergeBytes_zero hf (by simp) (by simp)).symm
  | succ n ih =>
    have ih := ih fun j hj => hr j (by omega)
    simp only [Parcel.pairs] at ih ⊢
    rw [markedWords_succ, List.map_append, takePairs_append, ih,
      Nat.mul_succ, ← mergeBytes_append]
    by_cases h : load64 m (shadow + 8 * n) = 0#64
    · -- a word that is not sent has nothing to merge
      rw [if_neg (not_not.2 h), List.map_nil, takePairs, List.foldl_nil]
      symm
      refine mergeBytes_zero hf ?_ ?_
      · intro j hj
        rw [← Nat.add_assoc]
        exact load64_eq_zero_iff.1 h j hj
      · intro j hj
        rw [mergeBytes_metadata_of_not_mem (by omega), Nat.add_assoc]
        exact hr _ (by omega)
    · rw [if_pos h]
      refine mergeBytes_congr ?_ ?_
      · intro j hj
        rw [lane_load64 _ hj, Nat.add_assoc]
      · intro j hj
        rw [lane_load64 _ hj, Nat.add_assoc]

theorem snapshot_get {j : ℕ} (hj : j < pageSize) : (snapshot m mem).get j = m (mem + j) :=
  dif_pos hj

/-- The packets of the whole page merge the page. -/
theorem takePairs_pages : takePairs f ((Parcel.pages mem (snapshot m mem) shadow
    (snapshot m shadow)).pairs W check) r = mergePage f r m mem shadow :=
  mergeBytes_congr (fun _ hj => snapshot_get hj) fun _ hj => snapshot_get hj

/-- **A forwarded page is merged as a whole**, however it is sent. -/
theorem parcel_applied (hf : ∀ old d, f old d 0#8 = old)
    (hr : ∀ j < pageSize, r.metadata (mem + j) = 0#8) (hro : ¬ ReadonlyPage m shadow) :
    takePairs f ((parcel m mem shadow).pairs W check) r = mergePage f r m mem shadow := by
  have hsize : 8 * (pageSize / 8) = pageSize := rfl
  rw [parcel, if_neg hro]
  split_ifs
  · exact takePairs_pages
  · rw [takePairs_words hf _ (by rwa [hsize]), hsize, mergePage]

/-! ## The two ways of `forward_pair` -/

/-- Group messages by twos. -/
def pairUp {α : Type*} : List α → List (α × α)
  | a :: b :: l => (a, b) :: pairUp l
  | _ => []

/-- The packets of words come in pairs. -/
theorem pairUp_words (ws : List (ℕ × BitVec 64 × BitVec 64)) :
    pairUp (((Parcel.words ws).calls wid iter check).flatMap W.packets) =
      (Parcel.words ws).pairs W check := by
  simp only [Parcel.calls, Parcel.pairs]
  induction ws with
  | nil => rfl
  | cons w ws ih =>
    rw [List.flatMap_cons, List.map_cons, ← ih]
    rfl

/-- The pairs of packets sent between two states. -/
def Wire.streamPairs (W : Wire) (o o' : Outbox) : List (Packet × Packet) := pairUp (W.stream o o')

theorem stream_append (o : Outbox) (cs : List Call) :
    W.stream o { o with log := o.log ++ cs } = cs.flatMap W.packets := by
  rw [Wire.stream, List.drop_left]

theorem forwardPair_small {nonzero : ℕ} {s : Sender} (hpos : 1 ≤ nonzero) (hle : nonzero ≤ 8) :
    W.streamPairs s.out (forwardPair nonzero wid iter mem shadow check s).out =
      (Parcel.words (markedWords s.mem mem shadow (pageSize / 8))).pairs W check := by
  rw [forwardPair, if_neg (by omega), if_pos (by omega)]
  dsimp only
  rw [forwardWords_eq, sendWords_eq, Wire.streamPairs, stream_append, pairUp_words]

theorem forwardPair_large {nonzero : ℕ} {s : Sender} (hgt : 8 < nonzero) :
    W.streamPairs s.out (forwardPair nonzero wid iter mem shadow check s).out =
      (Parcel.pages mem (snapshot s.mem mem) shadow (snapshot s.mem shadow)).pairs W check := by
  have hout : (forwardPair nonzero wid iter mem shadow check s).out =
      (Parcel.pages mem (snapshot s.mem mem) shadow (snapshot s.mem shadow)).send wid iter check
        s.out := by
    rw [forwardPair, if_pos hgt]
    rfl
  rw [hout, sendPages_eq, Wire.streamPairs, stream_append]
  rfl

/-- **The two ways to send a page are interchangeable**, for a receiver that
    leaves bytes without metadata as they are, and has no metadata of the page
    yet: either way it merges the page as a whole.  Both zero the shadow page and
    keep the data. -/
theorem forwardPair_paths_agree (W : Wire) {am : AddressMap} (s : am.Shadow) (wid : Wid) (iter : ℕ)
    (check : Check) (st : Sender) (f : MergeFn) (r : Receiver) {n₁ n₂ : ℕ}
    (hf : ∀ old d, f old d 0#8 = old)
    (hr : ∀ j < pageSize, r.metadata ((am.getOriginalOf s).addr + j) = 0#8)
    (hpos : 1 ≤ n₁) (hle : n₁ ≤ 8) (hgt : 8 < n₂) :
    let mem := (am.getOriginalOf s).addr
    let shadow := s.1.addr
    let st₁ := forwardPair n₁ wid iter mem shadow check st
    let st₂ := forwardPair n₂ wid iter mem shadow check st
    takePairs f (W.streamPairs st.out st₁.out) r = takePairs f (W.streamPairs st.out st₂.out) r ∧
    takePairs f (W.streamPairs st.out st₂.out) r = mergePage f r st.mem mem shadow ∧
    (isZeroPage st₁.mem shadow ∧ isZeroPage st₂.mem shadow) ∧
    AgreeOn st₁.mem st.mem mem ∧ AgreeOn st₂.mem st.mem mem := by
  intro mem shadow st₁ st₂
  have hsize : 8 * (pageSize / 8) = pageSize := rfl
  have hzero : isZeroPage (setZeroPage st.mem shadow) shadow := by
    rw [isZeroPage_iff]
    intro j hj
    exact setZeroPage_apply shadow hj
  have hdata : AgreeOn (setZeroPage st.mem shadow) st.mem mem := by
    intro j hj
    exact setZeroPage_other (original_ne s s) hj
  have hmem₁ : st₁.mem = setZeroPage st.mem shadow := forwardPair_mem n₁ st
  have hmem₂ : st₂.mem = setZeroPage st.mem shadow := forwardPair_mem n₂ st
  rw [hmem₁, hmem₂]
  have hpages : takePairs f (W.streamPairs st.out st₂.out) r = mergePage f r st.mem mem shadow := by
    rw [forwardPair_large hgt, takePairs_pages]
  refine ⟨?_, hpages, ⟨hzero, hzero⟩, hdata, hdata⟩
  calc takePairs f (W.streamPairs st.out st₁.out) r
      = mergePage f r st.mem mem shadow := by
        rw [forwardPair_small hpos hle, takePairs_words hf _ (by rwa [hsize]), hsize, mergePage]
    _ = takePairs f (W.streamPairs st.out st₂.out) r := hpages.symm

theorem forwardPair_paths_agree_onePage :
    let mem := (AddressMap.shifted.getOriginalOf onePage).addr
    let shadow := onePage.1.addr
    let st : Sender := ⟨fun _ => 0x02#8, .init⟩
    let st₁ := forwardPair 1 0 0 mem shadow .required st
    let st₂ := forwardPair 9 0 0 mem shadow .required st
    takePairs updateByte (plainWire.streamPairs st.out st₁.out) ⟨fun _ => 0#8, fun _ => 0#8⟩ =
      takePairs updateByte (plainWire.streamPairs st.out st₂.out) ⟨fun _ => 0#8, fun _ => 0#8⟩ ∧
    takePairs updateByte (plainWire.streamPairs st.out st₂.out) ⟨fun _ => 0#8, fun _ => 0#8⟩ =
      mergePage updateByte ⟨fun _ => 0#8, fun _ => 0#8⟩ st.mem mem shadow ∧
    (isZeroPage st₁.mem shadow ∧ isZeroPage st₂.mem shadow) ∧
    AgreeOn st₁.mem st.mem mem ∧ AgreeOn st₂.mem st.mem mem :=
  forwardPair_paths_agree plainWire onePage 0 0 .required ⟨fun _ => 0x02#8, .init⟩ updateByte
    ⟨fun _ => 0#8, fun _ => 0#8⟩ updateByte_zero (fun _ _ => rfl) (by decide) (by decide)
    (by decide)

end SpecPriv
