/-
  The software queue between two processes.

  `data` is a ring of pairs of cells: a flag, which is null if the pair is
  free, and a value.  `head` and `tail` are the offsets of pairs.  Every
  access to `data` is checked here, so an operation that returns has stayed in
  bounds.

  `Represents q xs`: the queue `q` holds the list `xs`, as a ring of
  `QUEUE_SIZE / 2` slots (`Ring.Holds`).  Every operation has one lemma about
  it; `swQueue_refines` puts them together for all sequences of operations.
-/
import Mathlib.Algebra.Ring.Parity
import SpecPriv.Lib.Ring

namespace SpecPriv

/-- Cells hold pointers. -/
abbrev Cell64 := BitVec 64

def swQueueOccupied : Cell64 := 1#64

def swQueueNull : Cell64 := 0#64

/-- `queue_t`, with `size` cells. -/
structure SwQueue (size : ℕ) where
  head : ℕ
  tail : ℕ
  finished : ℕ
  data : Vector Cell64 size

variable {size : ℕ}

/-- Store into a cell, in bounds. -/
def store? (data : Vector Cell64 size) (i : ℕ) (v : Cell64) : Option (Vector Cell64 size) :=
  if h : i < size then some (data.set i v h) else none

/-- The offset after `p`, back to the start at the end of the ring. -/
def nextPair (size p : ℕ) : ℕ := if p + 2 ≥ size then 0 else p + 2

def swQueueProduce (q : SwQueue size) (value : Cell64) : Option (SwQueue size) := do
  let data ← store? q.data (q.head + 1) value
  let data ← store? data q.head swQueueOccupied
  some { q with data := data, head := nextPair size q.head }

def swQueueConsume (q : SwQueue size) : Option (Cell64 × SwQueue size) := do
  let value ← q.data[q.tail + 1]?
  let data ← store? q.data (q.tail + 1) swQueueNull
  let null ← data[q.tail + 1]?
  let data ← store? data q.tail null
  some (value, { q with data := data, tail := nextPair size q.tail })

/-- The loop of `__sw_queue_clear`, with fuel. -/
def swQueueClear : ℕ → SwQueue size → Option (SwQueue size)
  | 0, _ => none
  | fuel + 1, q => do
    let flag ← q.data[q.tail]?
    if flag ≠ swQueueNull then
      let data ← store? q.data q.tail swQueueNull
      swQueueClear fuel { q with data := data, tail := nextPair size q.tail }
    else some q

def swQueueReset (_ : SwQueue size) : SwQueue size :=
  ⟨0, 0, 0, Vector.replicate size swQueueNull⟩

def swQueueEmpty (q : SwQueue size) : Option UInt8 := do
  let flag ← q.data[q.tail]?
  some (if flag = swQueueNull then 1 else 0)

/-- A loop that consumes until the queue is empty, as in `busy_wait`, with
    fuel: the values that it took. -/
def consumeUntilEmpty : ℕ → SwQueue size → Option (List Cell64 × SwQueue size)
  | 0, _ => none
  | fuel + 1, q => do
    let empty ← swQueueEmpty q
    if empty = 0 then
      let (v, q) ← swQueueConsume q
      let (vs, q) ← consumeUntilEmpty fuel q
      some (v :: vs, q)
    else some ([], q)

/-! ## Sequences of operations -/

inductive QueueOp
  | produce (value : Cell64)
  | consume
  | clear
  | reset
  | empty
  | consumeUntilEmpty

/-- What an operation returns. -/
inductive Reply
  | none
  | value (v : Cell64)
  | values (vs : List Cell64)
  | empty (b : UInt8)

def QueueOp.exec (fuel : ℕ) (q : SwQueue size) : QueueOp → Option (Reply × SwQueue size)
  | produce v => (swQueueProduce q v).map fun q => (.none, q)
  | consume => (swQueueConsume q).map fun r => (.value r.1, r.2)
  | clear => (swQueueClear fuel q).map fun q => (.none, q)
  | reset => some (.none, swQueueReset q)
  | empty => (swQueueEmpty q).map fun b => (.empty b, q)
  | consumeUntilEmpty => (SpecPriv.consumeUntilEmpty fuel q).map fun r => (.values r.1, r.2)

def runQueue (fuel : ℕ) : List QueueOp → SwQueue size → Option (List Reply × SwQueue size)
  | [], q => some ([], q)
  | op :: ops, q => do
    let (r, q) ← op.exec fuel q
    let (rs, q) ← runQueue fuel ops q
    some (r :: rs, q)

/-- The operation may be used when the queue is `xs`. -/
def QueueOp.Legal (cap : ℕ) (xs : List Cell64) : QueueOp → Prop
  | produce _ => xs.length < cap
  | consume => xs ≠ []
  | _ => True

/-- What the operation is for: its reply, and the queue after it. -/
def QueueOp.spec (xs : List Cell64) : QueueOp → Reply × List Cell64
  | produce v => (.none, xs ++ [v])
  | consume => (.value (xs.headD 0#64), xs.tail)
  | clear | reset => (.none, [])
  | empty => (.empty (if xs = [] then 1 else 0), xs)
  | consumeUntilEmpty => (.values xs, [])

def LegalRun (cap : ℕ) : List Cell64 → List QueueOp → Prop
  | _, [] => True
  | xs, op :: ops => op.Legal cap xs ∧ LegalRun cap (op.spec xs).2 ops

def specRun : List Cell64 → List QueueOp → List Reply × List Cell64
  | xs, [] => ([], xs)
  | xs, op :: ops =>
    ((op.spec xs).1 :: (specRun (op.spec xs).2 ops).1, (specRun (op.spec xs).2 ops).2)

/-! ## Cells -/

/-- The content of a cell. -/
def cell (data : Vector Cell64 size) (i : ℕ) : Cell64 := data[i]?.getD 0#64

theorem getElem?_eq_cell (data : Vector Cell64 size) {i : ℕ} (h : i < size) :
    data[i]? = some (cell data i) := by
  simp [cell, h]

theorem store?_eq (data : Vector Cell64 size) {i : ℕ} (h : i < size) (v : Cell64) :
    ∃ data', store? data i v = some data' ∧ cell data' = Function.update (cell data) i v := by
  refine ⟨data.set i v h, dif_pos h, ?_⟩
  funext j
  rw [Function.update_apply, cell, cell, Vector.getElem?_set]
  split_ifs with h1 h2 h2
  · rfl
  · exact absurd h1.symm h2
  · exact absurd h2.symm h1
  · rfl

/-- The flags of the slots. -/
def flagOf (c : ℕ → Cell64) (i : ℕ) : Bool := c (2 * i) ≠ swQueueNull

/-- The values of the slots. -/
def valOf (c : ℕ → Cell64) (i : ℕ) : Cell64 := c (2 * i + 1)

variable {c : ℕ → Cell64} {v : Cell64} {h t cap fuel : ℕ} {q : SwQueue size} {x : Cell64}
  {xs : List Cell64}

@[simp] theorem occupied_ne_null : ¬ swQueueOccupied = swQueueNull := by decide

@[simp] theorem flagOf_update_flag :
    flagOf (Function.update c (2 * h) v) = Function.update (flagOf c) h (v ≠ swQueueNull) := by
  funext i
  by_cases hi : i = h <;> simp [flagOf, hi]

@[simp] theorem flagOf_update_val : flagOf (Function.update c (2 * h + 1) v) = flagOf c := by
  funext i
  rw [flagOf, Function.update_of_ne (by omega), flagOf]

@[simp] theorem valOf_update_flag : valOf (Function.update c (2 * h) v) = valOf c := by
  funext i
  rw [valOf, Function.update_of_ne (by omega), valOf]

@[simp] theorem valOf_update_val :
    valOf (Function.update c (2 * h + 1) v) = Function.update (valOf c) h v := by
  funext i
  by_cases hi : i = h <;> simp [valOf, hi]

/-- The queue holds the list `xs`. -/
def Represents (cap : ℕ) (q : SwQueue size) (xs : List Cell64) : Prop :=
  ∃ h t, q.head = 2 * h ∧ q.tail = 2 * t ∧
    Ring.Holds cap (flagOf (cell q.data)) (valOf (cell q.data)) h t xs

theorem nextPair_eq (hsize : size = 2 * cap) (hh : h < cap) :
    nextPair size (2 * h) = 2 * Ring.slot cap h 1 := by
  unfold nextPair Ring.slot
  by_cases hlast : h + 1 = cap
  · rw [if_pos (by omega), hlast, Nat.mod_self]
  · rw [if_neg (by omega), Nat.mod_eq_of_lt (by omega)]
    omega

/-- The offsets of a queue are those of slots. -/
structure AtSlots (cap : ℕ) (q : SwQueue size) : Prop where
  head : ∃ h < cap, q.head = 2 * h
  tail : ∃ t < cap, q.tail = 2 * t

/-! ## The operations -/

/-- Whether or not there is space, a produce stores its value in a slot. -/
theorem produce_atSlots (hsize : size = 2 * cap) (hq : AtSlots cap q) (v : Cell64) :
    ∃ q', swQueueProduce q v = some q' ∧ AtSlots cap q' ∧
      ∃ h, valOf (cell q'.data) = Function.update (valOf (cell q.data)) h v := by
  obtain ⟨h, hh, hhead⟩ := hq.head
  obtain ⟨d, hd, hcell⟩ := store?_eq q.data (show 2 * h + 1 < size by omega) v
  obtain ⟨d', hd', hcell'⟩ := store?_eq d (show 2 * h < size by omega) swQueueOccupied
  refine ⟨⟨nextPair size q.head, q.tail, q.finished, d'⟩, ?_, ⟨?_, hq.tail⟩, h, ?_⟩
  · simp [swQueueProduce, hhead, hd, hd']
  · refine ⟨Ring.slot cap h 1, Ring.slot_lt (by omega), ?_⟩
    rw [hhead, nextPair_eq hsize hh]
  · rw [hcell', hcell, valOf_update_flag, valOf_update_val]

/-- Whether or not the queue is empty, a consume clears a slot and gives its value. -/
theorem consume_atSlots (hsize : size = 2 * cap) (hq : AtSlots cap q) :
    ∃ t < cap, ∃ q', swQueueConsume q = some (valOf (cell q.data) t, q') ∧ AtSlots cap q' ∧
      valOf (cell q'.data) = Function.update (valOf (cell q.data)) t swQueueNull := by
  obtain ⟨t, ht, htail⟩ := hq.tail
  obtain ⟨d, hd, hcell⟩ := store?_eq q.data (show 2 * t + 1 < size by omega) swQueueNull
  obtain ⟨d', hd', hcell'⟩ := store?_eq d (show 2 * t < size by omega) swQueueNull
  have hload : q.data[2 * t + 1]? = some (valOf (cell q.data) t) := getElem?_eq_cell _ (by omega)
  have hnull : d[2 * t + 1]? = some swQueueNull := by
    rw [getElem?_eq_cell _ (by omega), hcell, Function.update_self]
  refine ⟨t, ht, ⟨q.head, nextPair size q.tail, q.finished, d'⟩, ?_, ⟨hq.head, ?_⟩, ?_⟩
  · simp [swQueueConsume, htail, hload, hd, hnull, hd']
  · refine ⟨Ring.slot cap t 1, Ring.slot_lt (by omega), ?_⟩
    rw [htail, nextPair_eq hsize ht]
  · rw [hcell', hcell, valOf_update_flag, valOf_update_val]

theorem reset_represents (hsize : size = 2 * cap) (hcap : 0 < cap) (q : SwQueue size) :
    Represents cap (swQueueReset q) [] := by
  refine ⟨0, 0, rfl, rfl, Ring.Holds.nil hcap ?_⟩
  intro i hi
  simp [flagOf, cell, swQueueReset, swQueueNull, show 2 * i < size by omega]

theorem produce_represents (hsize : size = 2 * cap) (hq : Represents cap q xs)
    (hlt : xs.length < cap) (v : Cell64) :
    ∃ q', swQueueProduce q v = some q' ∧ Represents cap q' (xs ++ [v]) := by
  obtain ⟨h, t, hhead, htail, hring⟩ := hq
  have hh := hring.head_lt
  obtain ⟨d, hd, hcell⟩ := store?_eq q.data (show 2 * h + 1 < size by omega) v
  obtain ⟨d', hd', hcell'⟩ := store?_eq d (show 2 * h < size by omega) swQueueOccupied
  refine ⟨⟨nextPair size q.head, q.tail, q.finished, d'⟩, ?_, Ring.slot cap h 1, t, ?_, htail, ?_⟩
  · simp [swQueueProduce, hhead, hd, hd']
  · rw [hhead, nextPair_eq hsize hh]
  · simpa [hcell', hcell] using hring.push hlt v

theorem consume_represents (hsize : size = 2 * cap) (hq : Represents cap q (x :: xs)) :
    ∃ q', swQueueConsume q = some (x, q') ∧ Represents cap q' xs := by
  obtain ⟨h, t, hhead, htail, hring⟩ := hq
  have ht := hring.tail_lt
  have hval : cell q.data (2 * t + 1) = x := hring.val_tail
  obtain ⟨d, hd, hcell⟩ := store?_eq q.data (show 2 * t + 1 < size by omega) swQueueNull
  obtain ⟨d', hd', hcell'⟩ := store?_eq d (show 2 * t < size by omega) swQueueNull
  have hload : q.data[2 * t + 1]? = some x := by rw [getElem?_eq_cell _ (by omega), hval]
  have hnull : d[2 * t + 1]? = some swQueueNull := by
    rw [getElem?_eq_cell _ (by omega), hcell, Function.update_self]
  refine ⟨⟨q.head, nextPair size q.tail, q.finished, d'⟩, ?_, h, Ring.slot cap t 1, hhead, ?_, ?_⟩
  · simp [swQueueConsume, htail, hload, hd, hnull, hd']
  · rw [htail, nextPair_eq hsize ht]
  · simpa [hcell', hcell] using hring.pop fun i hi => by rw [Function.update_of_ne hi]

theorem tail_flag (hsize : size = 2 * cap) (hq : Represents cap q xs) :
    ∃ flag, q.data[q.tail]? = some flag ∧ (flag = swQueueNull ↔ xs = []) := by
  obtain ⟨h, t, -, htail, hring⟩ := hq
  have ht := hring.tail_lt
  refine ⟨_, getElem?_eq_cell _ (by omega), ?_⟩
  have hflag := hring.flag_tail
  rw [flagOf, decide_eq_true_iff] at hflag
  rw [htail]
  exact not_iff_not.1 hflag

theorem empty_eq (hsize : size = 2 * cap) (hq : Represents cap q xs) :
    swQueueEmpty q = some (if xs = [] then 1 else 0) := by
  obtain ⟨flag, hflag, hnull⟩ := tail_flag hsize hq
  simp [swQueueEmpty, hflag, hnull]

/-- The body of `__sw_queue_clear` drops the oldest value. -/
theorem clear_step (hsize : size = 2 * cap) (hq : Represents cap q (x :: xs)) :
    ∃ d, store? q.data q.tail swQueueNull = some d ∧
      Represents cap { q with data := d, tail := nextPair size q.tail } xs := by
  obtain ⟨h, t, hhead, htail, hring⟩ := hq
  have ht := hring.tail_lt
  obtain ⟨d, hd, hcell⟩ := store?_eq q.data (show 2 * t < size by omega) swQueueNull
  refine ⟨d, ?_, h, Ring.slot cap t 1, hhead, ?_, ?_⟩
  · rw [htail, hd]
  · rw [htail, nextPair_eq hsize ht]
  · simpa [hcell] using hring.pop fun _ _ => rfl

theorem clear_represents (hsize : size = 2 * cap) : ∀ {xs : List Cell64} {fuel : ℕ}
    {q : SwQueue size}, Represents cap q xs → xs.length < fuel →
      ∃ q', swQueueClear fuel q = some q' ∧ Represents cap q' []
  | xs, fuel + 1, q, hq, hf => by
    obtain ⟨flag, hflag, hnull⟩ := tail_flag hsize hq
    cases xs with
    | nil => exact ⟨q, by simp [swQueueClear, hflag, hnull], hq⟩
    | cons x xs =>
      obtain ⟨d, hd, hq'⟩ := clear_step hsize hq
      obtain ⟨q', hclear, hrep⟩ := clear_represents hsize hq' (Nat.lt_of_succ_lt_succ hf)
      exact ⟨q', by simp [swQueueClear, hflag, hnull, hd, hclear], hrep⟩

theorem consumeUntilEmpty_represents (hsize : size = 2 * cap) : ∀ {xs : List Cell64} {fuel : ℕ}
    {q : SwQueue size}, Represents cap q xs → xs.length < fuel →
      ∃ q', consumeUntilEmpty fuel q = some (xs, q') ∧ Represents cap q' []
  | xs, fuel + 1, q, hq, hf => by
    have hempty := empty_eq hsize hq
    cases xs with
    | nil => exact ⟨q, by simp [consumeUntilEmpty, hempty], hq⟩
    | cons x xs =>
      obtain ⟨q₁, hconsume, hq₁⟩ := consume_represents hsize hq
      obtain ⟨q', hrest, hrep⟩ :=
        consumeUntilEmpty_represents hsize hq₁ (Nat.lt_of_succ_lt_succ hf)
      exact ⟨q', by simp [consumeUntilEmpty, hempty, hconsume, hrest], hrep⟩

theorem Represents.length_le (hq : Represents cap q xs) : xs.length ≤ cap := by
  obtain ⟨h, t, -, -, hring⟩ := hq
  exact hring.length_le

/-- One operation. -/
theorem exec_refines (hsize : size = 2 * cap) (hcap : 0 < cap) (hf : cap < fuel)
    (hq : Represents cap q xs) (op : QueueOp) (hop : op.Legal cap xs) :
    ∃ q', op.exec fuel q = some ((op.spec xs).1, q') ∧ Represents cap q' (op.spec xs).2 := by
  have hlen := hq.length_le
  cases op with
  | produce v =>
    obtain ⟨q', h, hq'⟩ := produce_represents hsize hq hop v
    exact ⟨q', by simp [QueueOp.exec, QueueOp.spec, h], hq'⟩
  | consume =>
    obtain ⟨x, xs, rfl⟩ := List.exists_cons_of_ne_nil hop
    obtain ⟨q', h, hq'⟩ := consume_represents hsize hq
    exact ⟨q', by simp [QueueOp.exec, QueueOp.spec, h], hq'⟩
  | clear =>
    obtain ⟨q', h, hq'⟩ := clear_represents hsize hq (hlen.trans_lt hf)
    exact ⟨q', by simp [QueueOp.exec, QueueOp.spec, h], hq'⟩
  | reset => exact ⟨_, rfl, reset_represents hsize hcap q⟩
  | empty => exact ⟨q, by simp [QueueOp.exec, QueueOp.spec, empty_eq hsize hq], hq⟩
  | consumeUntilEmpty =>
    obtain ⟨q', h, hq'⟩ := consumeUntilEmpty_represents hsize hq (hlen.trans_lt hf)
    exact ⟨q', by simp [QueueOp.exec, QueueOp.spec, h], hq'⟩

theorem run_refines (hsize : size = 2 * cap) (hcap : 0 < cap) (hf : cap < fuel) :
    ∀ {ops : List QueueOp} {xs : List Cell64} {q : SwQueue size}, Represents cap q xs →
      LegalRun cap xs ops →
      ∃ q', runQueue fuel ops q = some ((specRun xs ops).1, q') ∧
        Represents cap q' (specRun xs ops).2
  | [], xs, q, hq, _ => ⟨q, rfl, hq⟩
  | op :: ops, xs, q, hq, hl => by
    obtain ⟨q₁, hop, hq₁⟩ := exec_refines hsize hcap hf hq op hl.1
    obtain ⟨q', hrun, hq'⟩ := run_refines hsize hcap hf hq₁ hl.2
    exact ⟨q', by simp [runQueue, specRun, hop, hrun], hq'⟩

/-- **The software queue is a queue.**  After a reset, every sequence of
    operations that does not produce into a full queue, and does not consume
    from an empty one, stays in bounds, returns what the list says, and leaves
    the offsets even and in range. -/
theorem swQueue_refines (he : Even size) (hs : 2 ≤ size) (hf : size / 2 < fuel) (q₀ : SwQueue size)
    (ops : List QueueOp) (hl : LegalRun (size / 2) [] ops) :
    ∃ q, runQueue fuel ops (swQueueReset q₀) = some ((specRun [] ops).1, q) ∧
      Represents (size / 2) q (specRun [] ops).2 ∧
      (Even q.head ∧ q.head < size) ∧ (Even q.tail ∧ q.tail < size) := by
  have hsize : size = 2 * (size / 2) := by
    obtain ⟨k, hk⟩ := he
    omega
  obtain ⟨q, hrun, hq⟩ :=
    run_refines hsize (by omega) hf (reset_represents hsize (by omega) q₀) hl
  refine ⟨q, hrun, hq, ?_⟩
  obtain ⟨h, t, hhead, htail, hring⟩ := hq
  have hh := hring.head_lt
  have ht := hring.tail_lt
  rw [hhead, htail]
  exact ⟨⟨even_two_mul h, by omega⟩, even_two_mul t, by omega⟩

/-- A queue of two slots that is filled, read, filled again over the end of
    the ring, and drained. -/
theorem swQueue_refines_two :
    ∃ q, runQueue 3 [.produce 0#64, .produce 7#64, .consume, .produce 9#64, .empty,
        .consumeUntilEmpty, .empty] (swQueueReset ⟨0, 0, 0, #v[1#64, 1#64, 1#64, 1#64]⟩) =
      some ((specRun [] [.produce 0#64, .produce 7#64, .consume, .produce 9#64, .empty,
        .consumeUntilEmpty, .empty]).1, q) ∧
      Represents 2 q (specRun [] [.produce 0#64, .produce 7#64, .consume, .produce 9#64, .empty,
        .consumeUntilEmpty, .empty]).2 ∧
      (Even q.head ∧ q.head < 4) ∧ (Even q.tail ∧ q.tail < 4) :=
  swQueue_refines (by decide) (by decide) (by decide) _ _
    (by simp [LegalRun, QueueOp.Legal, QueueOp.spec])

end SpecPriv
