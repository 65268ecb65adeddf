/-
  Mailboxes that are written and emptied in any order.

  Values are put into one of `cap` boxes, over whatever is there, and taken out
  of them.  Each value gets a ticket, its number among the values that were
  put: `Holds cap val null ticket posted used` says that the boxes hold the
  values of the tickets in them, and that no two boxes have a ticket in common
  with each other or with the tickets `used`, which were taken out.

  A run of `take`s then takes different tickets (`Taken`).
-/
import Mathlib.Data.List.ReduceOption
import Mathlib.Data.Set.Insert
import Mathlib.Logic.Function.Basic

namespace Mailboxes

variable {α : Type*}

/-- The value of a ticket; without a ticket it is `null`. -/
def Matches (null : α) (posted : List α) (v : α) : Option ℕ → Prop
  | none => v = null
  | some j => posted[j]? = some v

structure Holds (cap : ℕ) (val : ℕ → α) (null : α) (ticket : ℕ → Option ℕ) (posted : List α)
    (used : Set ℕ) : Prop where
  val_eq : ∀ i < cap, Matches null posted (val i) (ticket i)
  inj : ∀ i < cap, ∀ i' < cap, ∀ j, ticket i = some j → ticket i' = some j → i = i'
  unused : ∀ i < cap, ∀ j, ticket i = some j → j ∉ used
  used_lt : ∀ j ∈ used, j < posted.length

variable {cap i n : ℕ} {val : ℕ → α} {null v : α} {ticket : ℕ → Option ℕ} {posted posted' : List α}
  {used : Set ℕ} {t : Option ℕ}

theorem Matches.lt (h : Matches null posted v (some n)) : n < posted.length := by
  obtain ⟨hlt, -⟩ := List.getElem?_eq_some_iff.1 h
  exact hlt

/-- More values do not change those of earlier tickets. -/
theorem Matches.mono (h : Matches null posted v t) : Matches null (posted ++ posted') v t := by
  cases t with
  | none => exact h
  | some j =>
    have hlt := h.lt
    exact (List.getElem?_append_left hlt).trans h

namespace Holds

theorem nil (cap : ℕ) (null : α) (h : ∀ i < cap, val i = null) :
    Holds cap val null (fun _ => none) [] ∅ where
  val_eq := h
  inj := by
    intro i _ i' _ j hj
    cases hj
  unused := by
    intro i _ j hj
    cases hj
  used_lt := by
    intro j hj
    cases hj

/-- All boxes are emptied at once. -/
theorem clear (h : Holds cap val null ticket posted used) {val' : ℕ → α}
    (hval : ∀ i < cap, val' i = null) : Holds cap val' null (fun _ => none) posted used where
  val_eq := hval
  inj := by
    intro i _ i' _ j hj
    cases hj
  unused := by
    intro i _ j hj
    cases hj
  used_lt := h.used_lt

/-- A value is put into a box. -/
theorem put (h : Holds cap val null ticket posted used) (i : ℕ) (v : α) :
    Holds cap (Function.update val i v) null (Function.update ticket i (some posted.length))
      (posted ++ [v]) used := by
  have hold : ∀ k < cap, ticket k ≠ some posted.length := by
    intro k hk hj
    have hmatch := h.val_eq k hk
    rw [hj] at hmatch
    exact absurd hmatch.lt (Nat.lt_irrefl _)
  refine ⟨?_, ?_, ?_, ?_⟩
  · intro k hk
    rw [Function.update_apply, Function.update_apply]
    split_ifs
    · show (posted ++ [v])[posted.length]? = some v
      simp
    · exact (h.val_eq k hk).mono
  · intro k hk k' hk' j hj hj'
    rw [Function.update_apply] at hj hj'
    split_ifs at hj hj' with hki hki' hki'
    · rw [hki, hki']
    · exact absurd (hj'.trans hj.symm) (hold k' hk')
    · exact absurd (hj.trans hj'.symm) (hold k hk)
    · exact h.inj k hk k' hk' j hj hj'
  · intro k hk j hj
    rw [Function.update_apply] at hj
    split_ifs at hj
    · obtain rfl := Option.some.inj hj
      intro hused
      exact absurd (h.used_lt _ hused) (Nat.lt_irrefl _)
    · exact h.unused k hk j hj
  · intro j hj
    have hlt := h.used_lt j hj
    rw [List.length_append]
    omega

/-- A box is emptied, and its ticket is used. -/
theorem take (h : Holds cap val null ticket posted used) (hi : i < cap) :
    Holds cap (Function.update val i null) null (Function.update ticket i none) posted
      (used ∪ {j | ticket i = some j}) := by
  refine ⟨?_, ?_, ?_, ?_⟩
  · intro k hk
    rw [Function.update_apply, Function.update_apply]
    split_ifs
    · rfl
    · exact h.val_eq k hk
  · intro k hk k' hk' j hj hj'
    rw [Function.update_apply] at hj hj'
    split_ifs at hj hj'
    exact h.inj k hk k' hk' j hj hj'
  · intro k hk j hj
    rw [Function.update_apply] at hj
    split_ifs at hj with hki
    rintro (hused | hused)
    · exact h.unused k hk j hj hused
    · exact hki (h.inj k hk i hi j hj hused)
  · rintro j (hj | hj)
    · exact h.used_lt j hj
    · have hmatch := h.val_eq i hi
      rw [show ticket i = some j from hj] at hmatch
      exact hmatch.lt

end Holds

/-- The values `takes`, each with the number of values that were put before it
    was taken, are those of different tickets, all of them of values put
    before, and none of them used already. -/
structure Taken (null : α) (posted : List α) (used : Set ℕ) (takes : List (ℕ × α))
    (tickets : List (Option ℕ)) : Prop where
  matched : List.Forall₂ (fun x t => Matches null posted x.2 t ∧ ∀ j ∈ t, j < x.1) takes tickets
  nodup : tickets.reduceOption.Nodup
  unused : ∀ j ∈ tickets.reduceOption, j ∉ used

namespace Taken

variable {takes takes' : List (ℕ × α)} {tickets tickets' : List (Option ℕ)}

theorem nil : Taken null posted used [] [] := ⟨.nil, List.nodup_nil, by simp⟩

/-- One more take, before the others. -/
theorem cons (hv : Matches null posted v t) (hlt : ∀ j ∈ t, j < n ∧ j ∉ used)
    (h : Taken null posted (used ∪ {j | t = some j}) takes tickets) :
    Taken null posted used ((n, v) :: takes) (t :: tickets) := by
  refine ⟨.cons ⟨hv, fun j hj => (hlt j hj).1⟩ h.matched, ?_, ?_⟩
  · cases t with
    | none => exact h.nodup
    | some j =>
      rw [List.reduceOption_cons_of_some]
      refine List.nodup_cons.2 ⟨?_, h.nodup⟩
      intro hj
      exact h.unused j hj (Or.inr rfl)
  · intro j hj
    cases t with
    | none => exact fun hused => h.unused j hj (Or.inl hused)
    | some k =>
      rw [List.reduceOption_cons_of_some, List.mem_cons] at hj
      rcases hj with rfl | hj
      · exact (hlt j rfl).2
      · exact fun hused => h.unused j hj (Or.inl hused)

end Taken

end Mailboxes
