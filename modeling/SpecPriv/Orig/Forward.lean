/-
  `forward_pair`: how a touched page is passed on.

  A page with more than eight non-zero words of metadata is forwarded as a
  whole, with its shadow page; one with few is forwarded word by word; one
  that was only read goes into the read-only buffer.  In all cases the shadow
  page is zeroed.

  `Parcel` is what is passed on for a page, stated without the scan of the
  page: `forwardPair_eq` says that `clear_read` and `forward_pair` send the
  parcel of the page and zero its shadow.
-/
import SpecPriv.Orig.ClearRead
import SpecPriv.Orig.RoBuffer

namespace SpecPriv

open Loop

/-- What forwarding works on: the worker's memory, its read-only buffer and
    its calls. -/
structure Sender where
  mem : Memory
  out : Outbox

/-- One round of the packet loop, for the words at offset `i`. -/
def forwardWord (wid : Wid) (iter : ℕ) (m : Memory) (mem shadow : ℕ) (check : Check) (i : ℕ)
    (o : Outbox) : Outbox :=
  let sv := load64 m (shadow + i)
  if sv ≠ 0#64 then
    let o := forwardPacket wid iter (mem + i) (load64 m (mem + i)) 8 check o
    forwardPacket wid iter 0 sv 8 check o
  else o

def forwardPair (nonzero : ℕ) (wid : Wid) (iter : ℕ) (mem shadow : ℕ) (check : Check)
    (s : Sender) : Sender :=
  if nonzero > 8 then
    let o := forwardPage wid iter (.page mem (snapshot s.mem mem)) check s.out
    let o := forwardPage wid iter (.page shadow (snapshot s.mem shadow)) check o
    ⟨setZeroPage s.mem shadow, o⟩
  else if nonzero ≠ 0 then
    let o := forLoop 0 pageSize 8 (forwardWord wid iter s.mem mem shadow check) s.out
    ⟨setZeroPage s.mem shadow, o⟩
  else
    ⟨setZeroPage s.mem shadow, bufferRoPage wid iter mem s.out⟩

/-! ## Parcels -/

/-- What is passed on for a page. -/
inductive Parcel
  /-- the data page and the shadow page -/
  | pages (mem : ℕ) (data : PageBytes) (shadow : ℕ) (metadata : PageBytes)
  /-- addresses of words, each with the word and its metadata -/
  | words (ws : List (ℕ × BitVec 64 × BitVec 64))
  /-- an entry of the read-only buffer -/
  | readonly (mem : ℕ)

/-- Send a word and its metadata. -/
def sendWord (wid : Wid) (iter : ℕ) (check : Check) (o : Outbox) (w : ℕ × BitVec 64 × BitVec 64) :
    Outbox :=
  forwardPacket wid iter 0 w.2.2 8 check (forwardPacket wid iter w.1 w.2.1 8 check o)

def Parcel.send (wid : Wid) (iter : ℕ) (check : Check) (o : Outbox) : Parcel → Outbox
  | pages mem data shadow metadata =>
    forwardPage wid iter (.page shadow metadata) check
      (forwardPage wid iter (.page mem data) check o)
  | words ws => ws.foldl (sendWord wid iter check) o
  | readonly mem => bufferRoPage wid iter mem o

/-- The calls that pass a parcel on, without the flushes of the read-only
    buffer. -/
def Parcel.calls (wid : Wid) (iter : ℕ) (check : Check) : Parcel → List Call
  | pages mem data shadow metadata =>
    [.forwardPage wid iter (.page mem data) check,
      .forwardPage wid iter (.page shadow metadata) check]
  | words ws => ws.flatMap fun w =>
    [.forwardPacket wid iter w.1 w.2.1 8 check, .forwardPacket wid iter 0 w.2.2 8 check]
  | readonly _ => []

/-- The entries of the read-only buffer that a parcel takes. -/
def Parcel.entries : Parcel → List ℕ
  | readonly mem => [mem]
  | _ => []

/-- The words with metadata among the first `n` words of a page, in ascending
    order. -/
def markedWords (m : Memory) (mem shadow : ℕ) (n : ℕ) : List (ℕ × BitVec 64 × BitVec 64) :=
  ((List.range n).filter fun k => load64 m (shadow + 8 * k) ≠ 0#64).map fun k =>
    (mem + 8 * k, load64 m (mem + 8 * k), load64 m (shadow + 8 * k))

/-- The parcel of the page `mem` with the metadata in `shadow`. -/
def parcel (m : Memory) (mem shadow : ℕ) : Parcel :=
  if ReadonlyPage m shadow then .readonly mem
  else if nonzeroWords m shadow > 8 then
    .pages mem (snapshot m mem) shadow (snapshot m shadow)
  else .words (markedWords m mem shadow (pageSize / 8))

variable {wid : Wid} {iter : ℕ} {check : Check} {m : Memory} {mem shadow : ℕ}

theorem sendPages_eq (data : PageBytes) (metadata : PageBytes) (o : Outbox) :
    (Parcel.pages mem data shadow metadata).send wid iter check o =
      { o with log := o.log ++ (Parcel.pages mem data shadow metadata).calls wid iter check } := by
  simp [Parcel.send, Parcel.calls, forwardPage, Outbox.call]

theorem sendWords_eq (ws : List (ℕ × BitVec 64 × BitVec 64)) (o : Outbox) :
    (Parcel.words ws).send wid iter check o =
      { o with log := o.log ++ (Parcel.words ws).calls wid iter check } := by
  simp only [Parcel.send, Parcel.calls]
  induction ws generalizing o with
  | nil => simp
  | cons w ws ih =>
    rw [List.foldl_cons, ih]
    simp [sendWord, forwardPacket, Outbox.call]

@[simp] theorem Parcel.calls_direct (p : Parcel) :
    directCalls (p.calls wid iter check) = p.calls wid iter check := by
  refine List.filter_eq_self.2 ?_
  intro c hc
  cases p with
  | pages mem data shadow metadata =>
    simp only [calls, List.mem_cons, List.not_mem_nil, or_false] at hc
    rcases hc with rfl | rfl <;> rfl
  | words ws =>
    obtain ⟨w, -, hw⟩ := List.mem_flatMap.1 hc
    simp only [List.mem_cons, List.not_mem_nil, or_false] at hw
    rcases hw with rfl | rfl <;> rfl
  | readonly mem => cases hc

theorem Parcel.send_direct (p : Parcel) (o : Outbox) :
    directCalls (p.send wid iter check o).log = directCalls o.log ++ p.calls wid iter check := by
  cases p with
  | pages mem data shadow metadata => rw [sendPages_eq, directCalls_append, calls_direct]
  | words ws => rw [sendWords_eq, directCalls_append, calls_direct]
  | readonly mem => simp [send, calls]

/-- Calls that do not touch the read-only buffer, and carry none of it. -/
theorem Sends.of_direct {o : Outbox} {cs : List Call} {xs : List ℕ}
    (h : o.roPageBuffer.Pending xs) (hcs : directCalls cs = cs) :
    Sends iter o { o with log := o.log ++ cs } xs [] xs := by
  have hnone : ∀ n, entriesUnder n cs = [] := by
    intro n
    rw [entriesUnder, List.flatMap_eq_nil_iff]
    intro data hdata
    obtain ⟨c, hc, hchunk⟩ := List.mem_filterMap.1 hdata
    have hdirect := List.filter_eq_self.1 hcs c hc
    cases c with
    | forwardPage _ _ src _ => cases src <;> simp [Call.chunkUnder] at hchunk hdirect
    | _ => cases hchunk
  refine ⟨h, cs, rfl, by simp [hnone], ?_⟩
  intro n _
  exact hnone n

/-- A parcel of a read-only page, and only that, takes an entry of the
    buffer. -/
theorem Parcel.send_sends (wid : Wid) {o : Outbox} {xs : List ℕ} (p : Parcel)
    (h : o.roPageBuffer.Pending xs) (hp : ∀ mem ∈ p.entries, mem ≠ 0) :
    ∃ xs', Sends iter o (p.send wid iter check o) xs p.entries xs' := by
  cases p with
  | pages mem data shadow metadata =>
    rw [sendPages_eq]
    exact ⟨xs, Sends.of_direct h (calls_direct _)⟩
  | words ws =>
    rw [sendWords_eq]
    exact ⟨xs, Sends.of_direct h (calls_direct _)⟩
  | readonly mem => exact bufferRoPage_sends wid iter h (hp mem (by simp [entries]))

theorem markedWords_succ (n : ℕ) : markedWords m mem shadow (n + 1) = markedWords m mem shadow n ++
    if load64 m (shadow + 8 * n) ≠ 0#64 then
      [(mem + 8 * n, load64 m (mem + 8 * n), load64 m (shadow + 8 * n))] else [] := by
  simp only [markedWords, List.range_succ, List.filter_append, List.map_append]
  congr 1
  by_cases h : load64 m (shadow + 8 * n) = 0#64 <;> simp [h]

/-- The packet loop sends the words with metadata. -/
theorem forwardWords_eq (o : Outbox) :
    forLoop 0 pageSize 8 (forwardWord wid iter m mem shadow check) o =
      (Parcel.words (markedWords m mem shadow (pageSize / 8))).send wid iter check o := by
  have hrounds : rounds 0 pageSize 8 = pageSize / 8 := rfl
  rw [forLoop, hrounds]
  refine forN_induct (P := fun k o' =>
    o' = (Parcel.words (markedWords m mem shadow k)).send wid iter check o) rfl ?_
  rintro k - _ rfl
  simp only [forwardWord, Parcel.send, Nat.zero_add, markedWords_succ, List.foldl_append]
  by_cases h : load64 m (shadow + 8 * k) = 0#64
  · simp [h]
  · simp [h, sendWord]

/-- **`clear_read` and `forward_pair` send the parcel of the page** and zero
    its shadow, for a page that has metadata. -/
theorem forwardPair_eq (s : Sender) (h : ¬ isZeroPage s.mem shadow) :
    forwardPair (clearRead shadow s.mem).2 wid iter mem shadow check s =
      ⟨setZeroPage s.mem shadow, (parcel s.mem mem shadow).send wid iter check s.out⟩ := by
  have hne : nonzeroWords s.mem shadow ≠ 0 := by
    intro h0
    exact h (isZeroPage_iff.2 (nonzeroWords_eq_zero_iff.1 h0))
  rw [clearRead_eq]
  by_cases hr : ReadonlyPage s.mem shadow
  · rw [parcel, if_pos hr, if_pos hr]
    rfl
  · rw [parcel, if_neg hr, if_neg hr, forwardPair]
    by_cases hbig : nonzeroWords s.mem shadow > 8
    · rw [if_pos hbig, if_pos hbig]
      rfl
    · rw [if_neg hbig, if_neg hbig, if_pos hne, forwardWords_eq]

/-- The three branches of `forward_pair` leave the same memory. -/
theorem forwardPair_mem (nonzero : ℕ) (s : Sender) :
    (forwardPair nonzero wid iter mem shadow check s).mem = setZeroPage s.mem shadow := by
  unfold forwardPair
  split_ifs <;> rfl

/-! ## Parcels depend on the two pages only -/

/-- Two memories agree on the page at `a`. -/
def AgreeOn (m m' : Memory) (a : ℕ) : Prop := ∀ j < pageSize, m (a + j) = m' (a + j)

variable {m' : Memory} {a : ℕ}

theorem AgreeOn.snapshot (h : AgreeOn m m' a) : snapshot m a = snapshot m' a := by
  ext1 j
  exact h j j.2

theorem AgreeOn.load64 (h : AgreeOn m m' a) {k : ℕ} (hk : k < pageSize / 8) :
    load64 m (a + 8 * k) = load64 m' (a + 8 * k) := by
  have hsize : pageSize = 8 * (pageSize / 8) := rfl
  refine Words.eq_of_lanes (b := 8) (n := 8) ?_
  intro j hj
  rw [lane_load64 _ hj, lane_load64 _ hj, Nat.add_assoc]
  exact h _ (by omega)

theorem AgreeOn.readonlyPage (h : AgreeOn m m' a) : ReadonlyPage m a ↔ ReadonlyPage m' a := by
  refine forall₂_congr ?_
  intro j hj
  rw [h j hj]

theorem AgreeOn.isZeroPage (h : AgreeOn m m' a) : isZeroPage m a = isZeroPage m' a := by
  rw [Bool.eq_iff_iff, isZeroPage_iff, isZeroPage_iff]
  refine forall₂_congr ?_
  intro j hj
  rw [h j hj]

theorem AgreeOn.nonzeroWords (h : AgreeOn m m' a) : nonzeroWords m a = nonzeroWords m' a := by
  unfold SpecPriv.nonzeroWords nonzeroBelow
  refine List.countP_congr ?_
  intro k hk
  rw [h.load64 (List.mem_range.1 hk)]

theorem AgreeOn.markedWords (h : AgreeOn m m' mem) (h' : AgreeOn m m' shadow) :
    markedWords m mem shadow (pageSize / 8) = markedWords m' mem shadow (pageSize / 8) := by
  have hkeep : ∀ k ∈ List.range (pageSize / 8), decide (SpecPriv.load64 m (shadow + 8 * k) ≠ 0#64) =
      decide (SpecPriv.load64 m' (shadow + 8 * k) ≠ 0#64) := by
    intro k hk
    rw [h'.load64 (List.mem_range.1 hk)]
  unfold SpecPriv.markedWords
  rw [List.filter_congr hkeep]
  refine List.map_congr_left ?_
  intro k hk
  have hk' := List.mem_range.1 (List.mem_filter.1 hk).1
  rw [h.load64 hk', h'.load64 hk']

theorem AgreeOn.parcel (h : AgreeOn m m' mem) (h' : AgreeOn m m' shadow) :
    parcel m mem shadow = parcel m' mem shadow := by
  unfold SpecPriv.parcel
  simp only [h'.readonlyPage, h'.nonzeroWords, h.snapshot, h'.snapshot, h.markedWords h']

end SpecPriv
