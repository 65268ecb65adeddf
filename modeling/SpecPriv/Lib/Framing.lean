/-
  Framing of a stream of messages.

  A receiver takes messages from a stream: some alone, some together with the
  message that follows, until one says that the stream ends.  `receive` does
  so; it fails on a stream that ends too early.

  `Frames ms items` says that the receiver takes `ms` as `items`, whatever
  comes after.  Streams that are framed so are composed with `Frames.append`
  and `Frames.flatMap`, and read back with `receive_stop`.
-/
import Mathlib.Data.List.Basic

namespace Framing

variable {α : Type*}

/-- How a message is taken. -/
inductive Take
  | alone
  | withNext
  | stop

/-- Messages that are taken together. -/
inductive Item (α : Type*)
  | alone (a : α)
  | pair (a b : α)

def Item.messages : Item α → List α
  | alone a => [a]
  | pair a b => [a, b]

/-- The second of a pair goes with the first. -/
def Item.pair? : Item α → Option (α × α)
  | alone _ => none
  | pair a b => some (a, b)

def Item.alone? : Item α → Option α
  | alone a => some a
  | pair _ _ => none

/-- Put an item in front of what is received later. -/
def push (x : Item α) (r : List (Item α) × List α) : List (Item α) × List α := (x :: r.1, r.2)

/-- The items up to the end of the stream, and what is left after it. -/
def receive (take : α → Take) : List α → Option (List (Item α) × List α)
  | [] => none
  | [a] =>
    match take a with
    | .stop => some ([], [])
    | .alone | .withNext => none
  | a :: b :: rest =>
    match take a with
    | .stop => some ([], b :: rest)
    | .alone => (receive take (b :: rest)).map (push (.alone a))
    | .withNext => (receive take rest).map (push (.pair a b))

variable {take : α → Take} {a b : α} {ms ms' rest : List α} {items items' : List (Item α)}

theorem receive_stop (h : take a = .stop) : receive take (a :: rest) = some ([], rest) := by
  cases rest <;> simp [receive, h]

theorem receive_alone (h : take a = .alone) :
    receive take (a :: rest) = (receive take rest).map (push (.alone a)) := by
  cases rest <;> simp [receive, h]

theorem receive_pair (h : take a = .withNext) :
    receive take (a :: b :: rest) = (receive take rest).map (push (.pair a b)) := by
  simp [receive, h]

/-- The receiver takes `ms` as `items`, whatever follows. -/
def Frames (take : α → Take) (ms : List α) (items : List (Item α)) : Prop :=
  ∀ rest, receive take (ms ++ rest) = (receive take rest).map fun r => (items ++ r.1, r.2)

theorem Frames.nil : Frames take [] [] := by
  intro rest
  simp

theorem Frames.alone (h : take a = .alone) : Frames take [a] [.alone a] := by
  intro rest
  exact receive_alone h

theorem Frames.pair (h : take a = .withNext) : Frames take [a, b] [.pair a b] := by
  intro rest
  exact receive_pair h

theorem Frames.append (h : Frames take ms items) (h' : Frames take ms' items') :
    Frames take (ms ++ ms') (items ++ items') := by
  intro rest
  rw [List.append_assoc, h, h', Option.map_map]
  simp [Function.comp_def]

theorem Frames.flatMap {β : Type*} {f : β → List α} {g : β → List (Item α)} {l : List β}
    (h : ∀ x ∈ l, Frames take (f x) (g x)) : Frames take (l.flatMap f) (l.flatMap g) := by
  induction l with
  | nil => exact Frames.nil
  | cons x l ih =>
    rw [List.flatMap_cons, List.flatMap_cons]
    refine (h x List.mem_cons_self).append ?_
    refine ih ?_
    intro y hy
    exact h y (List.mem_cons_of_mem x hy)

/-- Messages that are all taken alone. -/
theorem Frames.map_alone (h : ∀ a ∈ ms, take a = .alone) :
    Frames take ms (ms.map .alone) := by
  induction ms with
  | nil => exact Frames.nil
  | cons a ms ih =>
    have hrest : Frames take ms (ms.map .alone) := by
      refine ih ?_
      intro b hb
      exact h b (List.mem_cons_of_mem a hb)
    exact (Frames.alone (h a List.mem_cons_self)).append hrest

/-- A framed stream with its end is received as framed. -/
theorem Frames.receive (h : Frames take ms items) (hb : take b = .stop) (rest : List α) :
    receive take (ms ++ b :: rest) = some (items, rest) := by
  rw [h, receive_stop hb]
  simp

/-- Nothing is lost or made up: what a receiver takes is the stream up to the
    message that ends it. -/
theorem receive_messages : ∀ {ms : List α} {r : List (Item α) × List α},
    receive take ms = some r →
      ∃ b, take b = .stop ∧ ms = r.1.flatMap Item.messages ++ b :: r.2
  | [a], r, h => by
    unfold receive at h
    split at h
    · next ha =>
      cases h
      exact ⟨a, ha, rfl⟩
    · cases h
    · cases h
  | a :: b :: rest, r, h => by
    unfold receive at h
    split at h
    · next ha =>
      cases h
      exact ⟨a, ha, rfl⟩
    · obtain ⟨r', hr', rfl⟩ := Option.map_eq_some_iff.1 h
      obtain ⟨c, hc, hms⟩ := receive_messages hr'
      exact ⟨c, hc, by simp [push, Item.messages, hms]⟩
    · obtain ⟨r', hr', rfl⟩ := Option.map_eq_some_iff.1 h
      obtain ⟨c, hc, hms⟩ := receive_messages hr'
      exact ⟨c, hc, by simp [push, Item.messages, hms]⟩

end Framing
