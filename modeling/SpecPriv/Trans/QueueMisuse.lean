/-
  The software queue in any use.

  A full queue that is produced into loses what it overwrites, and an empty one
  that is consumed from gives null, or a value that was cleared and not
  overwritten yet.  Here nothing is asked of the order of the operations.

  `swQueue_atMostOnce`: all operations return, in bounds, and no value that was
  put is taken twice, nor is one taken that was not put before.
-/
import Mathlib.Data.Finset.Card
import Mathlib.Data.Finset.Range
import SpecPriv.Lib.Mailboxes
import SpecPriv.Trans.SwQueue

namespace SpecPriv

open Mailboxes

variable {size : ℕ}

/-- The values that are put. -/
def produced : List QueueOp → List Cell64
  | [] => []
  | .produce v :: ops => v :: produced ops
  | _ :: ops => produced ops

/-- The values that are taken, each with the number of values that were put
    before; `n` were put before the operations. -/
def takes : ℕ → List QueueOp → List Reply → List (ℕ × Cell64)
  | n, .produce _ :: ops, _ :: rs => takes (n + 1) ops rs
  | n, _ :: ops, .value v :: rs => (n, v) :: takes n ops rs
  | n, _ :: ops, .values vs :: rs => vs.map (n, ·) ++ takes n ops rs
  | n, _ :: ops, _ :: rs => takes n ops rs
  | _, _, _ => []

/-- The slots of the queue are mailboxes, whatever their flags. -/
def Boxed (cap : ℕ) (q : SwQueue size) (ticket : ℕ → Option ℕ) (posted : List Cell64)
    (used : Set ℕ) : Prop :=
  ∃ h t, (q.head = 2 * h ∧ h < cap) ∧ (q.tail = 2 * t ∧ t < cap) ∧
    Holds cap (valOf (cell q.data)) swQueueNull ticket posted used

/-- The flagged slots. -/
def flags (cap : ℕ) (q : SwQueue size) : Finset ℕ :=
  (Finset.range cap).filter fun i => flagOf (cell q.data) i

/-- The values `vs`, taken one after the other, have the tickets `ts`: they may
    stand before what is taken later. -/
def TakesFirst (posted : List Cell64) (used used' : Set ℕ) (vs : List Cell64)
    (ts : List (Option ℕ)) : Prop :=
  ∀ posted' later tickets, Taken swQueueNull (posted ++ posted') used' later tickets →
    Taken swQueueNull (posted ++ posted') used (vs.map (posted.length, ·) ++ later) (ts ++ tickets)

variable {cap fuel h t : ℕ} {q : SwQueue size} {ticket : ℕ → Option ℕ} {posted : List Cell64}
  {used used' used'' : Set ℕ} {v : Cell64} {vs : List Cell64} {ts : List (Option ℕ)}

theorem flags_card_le : (flags cap q).card ≤ cap := by
  have hle := Finset.card_filter_le (Finset.range cap) fun i => flagOf (cell q.data) i
  rwa [Finset.card_range] at hle

/-- Clearing a flag leaves fewer of them. -/
theorem flags_lt {q' : SwQueue size} (ht : t < cap) (hflag : flagOf (cell q.data) t)
    (hq' : flagOf (cell q'.data) = Function.update (flagOf (cell q.data)) t false) :
    (flags cap q').card < (flags cap q).card := by
  refine Finset.card_lt_card ?_
  rw [Finset.ssubset_iff_of_subset]
  · refine ⟨t, Finset.mem_filter.2 ⟨Finset.mem_range.2 ht, hflag⟩, ?_⟩
    simp [flags, hq']
  · intro i hi
    obtain ⟨hr, hi⟩ := Finset.mem_filter.1 hi
    refine Finset.mem_filter.2 ⟨hr, ?_⟩
    rw [hq', Function.update_apply] at hi
    split_ifs at hi
    exact hi

theorem slot_succ_lt (hh : h < cap) : Ring.slot cap h 1 < cap := Ring.slot_lt (by omega)

/-! ## The operations -/

theorem reset_boxed (hsize : size = 2 * cap) (hcap : 0 < cap)
    (hq : Boxed cap q ticket posted used) :
    Boxed cap (swQueueReset q) (fun _ => none) posted used := by
  obtain ⟨-, -, -, -, hboxes⟩ := hq
  refine ⟨0, 0, ⟨rfl, hcap⟩, ⟨rfl, hcap⟩, hboxes.clear ?_⟩
  intro i hi
  simp [valOf, cell, swQueueReset, show 2 * i + 1 < size by omega]

theorem produce_boxed (hsize : size = 2 * cap) (hq : Boxed cap q ticket posted used) (v : Cell64) :
    ∃ q' ticket', swQueueProduce q v = some q' ∧ Boxed cap q' ticket' (posted ++ [v]) used := by
  obtain ⟨h, t, ⟨hhead, hh⟩, htail, hboxes⟩ := hq
  obtain ⟨d, hd, hcell⟩ := store?_eq q.data (show 2 * h + 1 < size by omega) v
  obtain ⟨d', hd', hcell'⟩ := store?_eq d (show 2 * h < size by omega) swQueueOccupied
  refine ⟨⟨nextPair size q.head, q.tail, q.finished, d'⟩, Function.update ticket h
    (some posted.length), ?_, Ring.slot cap h 1, t, ⟨?_, slot_succ_lt hh⟩, htail, ?_⟩
  · simp [swQueueProduce, hhead, hd, hd']
  · rw [hhead, nextPair_eq hsize hh]
  · simpa [hcell', hcell] using hboxes.put h v

theorem consume_boxed (hsize : size = 2 * cap) (hq : Boxed cap q ticket posted used) :
    ∃ v q' ticket' used' t, swQueueConsume q = some (v, q') ∧
      Boxed cap q' ticket' posted used' ∧ TakesFirst posted used used' [v] [t] ∧
      (swQueueEmpty q = some 0 → (flags cap q').card < (flags cap q).card) := by
  obtain ⟨h, t, hhead, ⟨htail, ht⟩, hboxes⟩ := hq
  obtain ⟨d, hd, hcell⟩ := store?_eq q.data (show 2 * t + 1 < size by omega) swQueueNull
  obtain ⟨d', hd', hcell'⟩ := store?_eq d (show 2 * t < size by omega) swQueueNull
  have hload : q.data[2 * t + 1]? = some (cell q.data (2 * t + 1)) := getElem?_eq_cell _ (by omega)
  have hnull : d[2 * t + 1]? = some swQueueNull := by
    rw [getElem?_eq_cell _ (by omega), hcell, Function.update_self]
  have hvalue : Matches swQueueNull posted (cell q.data (2 * t + 1)) (ticket t) :=
    hboxes.val_eq t ht
  refine ⟨cell q.data (2 * t + 1), ⟨q.head, nextPair size q.tail, q.finished, d'⟩,
    Function.update ticket t none, used ∪ {j | ticket t = some j}, ticket t, ?_,
    ⟨h, Ring.slot cap t 1, hhead, ⟨?_, slot_succ_lt ht⟩, ?_⟩, ?_, ?_⟩
  · simp [swQueueConsume, htail, hload, hd, hnull, hd']
  · rw [htail, nextPair_eq hsize ht]
  · simpa [hcell', hcell] using hboxes.take ht
  · intro posted' later tickets hlater
    refine Taken.cons hvalue.mono ?_ hlater
    intro j hj
    have hticket : ticket t = some j := hj
    rw [hticket] at hvalue
    exact ⟨hvalue.lt, hboxes.unused t ht j hticket⟩
  · intro hempty
    refine flags_lt ht ?_ (by simp [hcell', hcell])
    have hflag : q.data[2 * t]? = some (cell q.data (2 * t)) := getElem?_eq_cell _ (by omega)
    rw [flagOf, decide_eq_true_iff]
    intro h0
    simp [swQueueEmpty, htail, hflag, h0] at hempty

theorem empty_boxed (hsize : size = 2 * cap) (hq : Boxed cap q ticket posted used) :
    swQueueEmpty q = some 0 ∨ swQueueEmpty q = some 1 := by
  obtain ⟨h, t, hhead, ⟨htail, ht⟩, -⟩ := hq
  have hflag : q.data[q.tail]? = some (cell q.data q.tail) := getElem?_eq_cell _ (by omega)
  by_cases h0 : cell q.data q.tail = swQueueNull
  · right
    simp [swQueueEmpty, hflag, h0]
  · left
    simp [swQueueEmpty, hflag, h0]

/-- The loop of `__sw_queue_clear` ends when it has gone around. -/
theorem clear_boxed (hsize : size = 2 * cap) : ∀ {fuel : ℕ} {q : SwQueue size},
    Boxed cap q ticket posted used → (flags cap q).card < fuel →
      ∃ q', swQueueClear fuel q = some q' ∧ Boxed cap q' ticket posted used
  | fuel + 1, q, hq, hf => by
    obtain ⟨h, t, hhead, ⟨htail, ht⟩, hboxes⟩ := hq
    have hflag : q.data[2 * t]? = some (cell q.data (2 * t)) := getElem?_eq_cell _ (by omega)
    by_cases h0 : cell q.data (2 * t) = swQueueNull
    · refine ⟨q, ?_, h, t, hhead, ⟨htail, ht⟩, hboxes⟩
      simp [swQueueClear, htail, hflag, h0]
    · obtain ⟨d, hd, hcell⟩ := store?_eq q.data (show 2 * t < size by omega) swQueueNull
      have hnext : Boxed cap ⟨q.head, nextPair size (2 * t), q.finished, d⟩ ticket posted used := by
        refine ⟨h, Ring.slot cap t 1, hhead, ⟨nextPair_eq hsize ht, slot_succ_lt ht⟩, ?_⟩
        simpa [hcell] using hboxes
      have hfewer : (flags cap (⟨q.head, nextPair size (2 * t), q.finished, d⟩ :
          SwQueue size)).card < (flags cap q).card :=
        flags_lt ht (by simpa [flagOf] using h0) (by simp [hcell])
      have hfuel := hfewer.trans_le (Nat.le_of_lt_succ hf)
      obtain ⟨q', hclear, hq'⟩ := clear_boxed hsize hnext hfuel
      refine ⟨q', ?_, hq'⟩
      simpa [swQueueClear, htail, hflag, h0, hd] using hclear

theorem TakesFirst.nil : TakesFirst posted used used [] [] := fun _ _ _ h => h

theorem TakesFirst.cons {x : Option ℕ} (h : TakesFirst posted used used' [v] [x])
    (h' : TakesFirst posted used' used'' vs ts) :
    TakesFirst posted used used'' (v :: vs) (x :: ts) := by
  intro posted' later tickets hlater
  exact h posted' _ _ (h' posted' later tickets hlater)

/-- So does a loop that consumes until the queue is empty. -/
theorem consumeUntilEmpty_boxed (hsize : size = 2 * cap) : ∀ {fuel : ℕ} {q : SwQueue size}
    {ticket : ℕ → Option ℕ} {used : Set ℕ}, Boxed cap q ticket posted used →
      (flags cap q).card < fuel → ∃ vs q' ticket' used' ts,
        consumeUntilEmpty fuel q = some (vs, q') ∧ Boxed cap q' ticket' posted used' ∧
        TakesFirst posted used used' vs ts
  | fuel + 1, q, ticket, used, hq, hf => by
    rcases empty_boxed hsize hq with hempty | hempty
    · obtain ⟨v, q₁, ticket₁, used₁, x, hconsume, hq₁, hfirst, hfewer⟩ := consume_boxed hsize hq
      have hfuel := (hfewer hempty).trans_le (Nat.le_of_lt_succ hf)
      obtain ⟨vs, q', ticket', used', ts, hrest, hq', hnext⟩ :=
        consumeUntilEmpty_boxed hsize hq₁ hfuel
      refine ⟨v :: vs, q', ticket', used', x :: ts, ?_, hq', hfirst.cons hnext⟩
      simp [consumeUntilEmpty, hempty, hconsume, hrest]
    · refine ⟨[], q, ticket, used, [], ?_, hq, TakesFirst.nil⟩
      simp [consumeUntilEmpty, hempty]

/-! ## Runs -/

/-- An operation, with the tickets `ts` of what it takes, may stand before the
    operations that follow it. -/
def Precedes (posted : List Cell64) (used used' : Set ℕ) (op : QueueOp) (r : Reply)
    (ts : List (Option ℕ)) : Prop :=
  ∀ ops rs tickets,
    Taken swQueueNull ((posted ++ produced [op]) ++ produced ops) used'
      (takes (posted ++ produced [op]).length ops rs) tickets →
    Taken swQueueNull (posted ++ produced (op :: ops)) used
      (takes posted.length (op :: ops) (r :: rs)) (ts ++ tickets)

theorem exec_boxed (hsize : size = 2 * cap) (hcap : 0 < cap) (hf : cap < fuel)
    (hq : Boxed cap q ticket posted used) (op : QueueOp) :
    ∃ r q' ticket' used' ts, op.exec fuel q = some (r, q') ∧
      Boxed cap q' ticket' (posted ++ produced [op]) used' ∧
      Precedes posted used used' op r ts := by
  have hflags : (flags cap q).card < fuel := flags_card_le.trans_lt hf
  cases op with
  | produce v =>
    obtain ⟨q', ticket', hop, hq'⟩ := produce_boxed hsize hq v
    refine ⟨.none, q', ticket', used, [], by simp [QueueOp.exec, hop], hq', ?_⟩
    intro ops rs tickets hlater
    rwa [List.length_append, List.append_assoc] at hlater
  | consume =>
    have hstays : posted ++ produced [.consume] = posted := List.append_nil posted
    obtain ⟨v, q', ticket', used', x, hop, hq', hfirst, -⟩ := consume_boxed hsize hq
    rw [← hstays] at hq'
    refine ⟨.value v, q', ticket', used', [x], by simp [QueueOp.exec, hop], hq', ?_⟩
    intro ops rs tickets hlater
    rw [hstays] at hlater
    exact hfirst (produced ops) _ _ hlater
  | consumeUntilEmpty =>
    have hstays : posted ++ produced [.consumeUntilEmpty] = posted := List.append_nil posted
    obtain ⟨vs, q', ticket', used', ts, hop, hq', hfirst⟩ :=
      consumeUntilEmpty_boxed hsize hq hflags
    rw [← hstays] at hq'
    refine ⟨.values vs, q', ticket', used', ts, by simp [QueueOp.exec, hop], hq', ?_⟩
    intro ops rs tickets hlater
    rw [hstays] at hlater
    exact hfirst (produced ops) _ _ hlater
  | clear =>
    have hstays : posted ++ produced [.clear] = posted := List.append_nil posted
    obtain ⟨q', hop, hq'⟩ := clear_boxed hsize hq hflags
    rw [← hstays] at hq'
    refine ⟨.none, q', ticket, used, [], by simp [QueueOp.exec, hop], hq', ?_⟩
    intro ops rs tickets hlater
    rwa [hstays] at hlater
  | reset =>
    have hstays : posted ++ produced [.reset] = posted := List.append_nil posted
    have hq' := reset_boxed hsize hcap hq
    rw [← hstays] at hq'
    refine ⟨.none, swQueueReset q, fun _ => none, used, [], rfl, hq', ?_⟩
    intro ops rs tickets hlater
    rwa [hstays] at hlater
  | empty =>
    have hstays : posted ++ produced [.empty] = posted := List.append_nil posted
    have hempty : ∃ b, swQueueEmpty q = some b := by
      rcases empty_boxed hsize hq with h | h
      · exact ⟨0, h⟩
      · exact ⟨1, h⟩
    obtain ⟨b, hop⟩ := hempty
    rw [← hstays] at hq
    refine ⟨.empty b, q, ticket, used, [], by simp [QueueOp.exec, hop], hq, ?_⟩
    intro ops rs tickets hlater
    rwa [hstays] at hlater

theorem produced_cons (op : QueueOp) (ops : List QueueOp) :
    produced (op :: ops) = produced [op] ++ produced ops := by
  cases op <;> rfl

/-- A run, from any state of the mailboxes. -/
theorem run_boxed (hsize : size = 2 * cap) (hcap : 0 < cap) (hf : cap < fuel) :
    ∀ (ops : List QueueOp) {q : SwQueue size} {ticket : ℕ → Option ℕ} {posted : List Cell64}
      {used : Set ℕ}, Boxed cap q ticket posted used →
      ∃ rs q' tickets ticket' used', runQueue fuel ops q = some (rs, q') ∧
        Taken swQueueNull (posted ++ produced ops) used (takes posted.length ops rs) tickets ∧
        Boxed cap q' ticket' (posted ++ produced ops) used'
  | [], q, ticket, posted, used, hq => by
    refine ⟨[], q, [], ticket, used, rfl, Taken.nil, ?_⟩
    rwa [produced, List.append_nil]
  | op :: ops, q, ticket, posted, used, hq => by
    obtain ⟨r, q₁, ticket₁, used₁, ts, hop, hq₁, hfirst⟩ := exec_boxed hsize hcap hf hq op
    obtain ⟨rs, q', tickets, ticket', used', hrun, htaken, hq'⟩ := run_boxed hsize hcap hf ops hq₁
    refine ⟨r :: rs, q', ts ++ tickets, ticket', used', ?_, hfirst ops rs tickets htaken, ?_⟩
    · simp [runQueue, hop, hrun]
    · rwa [produced_cons, ← List.append_assoc]

/-- **No use of the queue takes a value twice.**  After a reset, every sequence
    of operations returns and stays in bounds, whether or not it respects how
    many values the queue holds; and the values that it takes, null apart, are
    those of different values that were put, each of them before it was
    taken. -/
theorem swQueue_atMostOnce (he : Even size) (hs : 2 ≤ size) (hf : size / 2 < fuel)
    (q₀ : SwQueue size) (ops : List QueueOp) :
    ∃ rs q tickets, runQueue fuel ops (swQueueReset q₀) = some (rs, q) ∧
      List.Forall₂ (fun x ticket => Matches swQueueNull (produced ops) x.2 ticket ∧
        ∀ j ∈ ticket, j < x.1) (takes 0 ops rs) tickets ∧
      tickets.reduceOption.Nodup ∧
      (Even q.head ∧ q.head < size) ∧ (Even q.tail ∧ q.tail < size) := by
  have hsize : size = 2 * (size / 2) := by
    obtain ⟨k, hk⟩ := he
    omega
  have hstart : Boxed (size / 2) (swQueueReset q₀) (fun _ => none) [] ∅ := by
    refine ⟨0, 0, ⟨rfl, by omega⟩, ⟨rfl, by omega⟩, Holds.nil _ _ ?_⟩
    intro i hi
    simp [valOf, cell, swQueueReset, show 2 * i + 1 < size by omega]
  obtain ⟨rs, q, tickets, ticket, used, hrun, htaken, hq⟩ :=
    run_boxed hsize (by omega) hf ops hstart
  obtain ⟨h, t, ⟨hhead, hh⟩, ⟨htail, ht⟩, -⟩ := hq
  rw [List.nil_append, List.length_nil] at htaken
  refine ⟨rs, q, tickets, hrun, htaken.matched, htaken.nodup, ?_⟩
  rw [hhead, htail]
  exact ⟨⟨even_two_mul h, by omega⟩, even_two_mul t, by omega⟩

/-- A queue of one slot that is overrun, read twice, and read after a clear. -/
theorem swQueue_atMostOnce_one :
    ∃ rs q tickets, runQueue 2 [.produce 5#64, .produce 7#64, .consume, .consume, .produce 9#64,
        .clear, .consume] (swQueueReset ⟨0, 0, 0, #v[1#64, 1#64]⟩) = some (rs, q) ∧
      List.Forall₂ (fun x ticket => Matches swQueueNull (produced [.produce 5#64, .produce 7#64,
          .consume, .consume, .produce 9#64, .clear, .consume]) x.2 ticket ∧
        ∀ j ∈ ticket, j < x.1) (takes 0 [.produce 5#64, .produce 7#64, .consume, .consume,
          .produce 9#64, .clear, .consume] rs) tickets ∧
      tickets.reduceOption.Nodup ∧
      (Even q.head ∧ q.head < 2) ∧ (Even q.tail ∧ q.tail < 2) :=
  swQueue_atMostOnce (by decide) (by decide) (by decide) _ _

end SpecPriv
