/-
  A receiver that takes a stream message by message.

  `Intake` is where such a receiver is: the streams that ended, the items of
  the current one, and the first message of a pair that waits for the second.
  `Intake.feed` takes one message.

  * `feedAll_receive`: fed with a whole stream, the receiver has the items that
    `receive` takes from it;
  * `feedAll_ended`, `feedAll_items`: fed with the beginning of a sequence of
    streams, it has the items of the first of them, and the first items of the
    next one.
-/
import SpecPriv.Lib.Framing

namespace Framing

variable {α : Type*}

/-- Where a receiver is. -/
structure Intake (α : Type*) where
  /-- the items of the streams that ended -/
  ended : List (List (Item α))
  /-- the items of the current stream -/
  items : List (Item α)
  /-- the first message of a pair -/
  waiting : Option α

namespace Intake

/-- At the beginning of a stream, after the streams `ended`. -/
def between (ended : List (List (Item α))) : Intake α := ⟨ended, [], none⟩

/-- Take one message. -/
def feed (take : α → Take) (s : Intake α) (a : α) : Intake α :=
  match s.waiting with
  | some b => ⟨s.ended, s.items ++ [.pair b a], none⟩
  | none =>
    match take a with
    | .alone => ⟨s.ended, s.items ++ [.alone a], none⟩
    | .withNext => ⟨s.ended, s.items, some a⟩
    | .stop => between (s.ended ++ [s.items])

def feedAll (take : α → Take) (s : Intake α) (ms : List α) : Intake α := ms.foldl (feed take) s

/-- All pairs so far, of all streams. -/
def pairs (s : Intake α) : List (α × α) := (s.ended.flatten ++ s.items).filterMap Item.pair?

variable {take : α → Take} {a : α} {ms ms' : List α} {s s' s'' : Intake α}

theorem feedAll_append : feedAll take s (ms ++ ms') = feedAll take (feedAll take s ms) ms' :=
  List.foldl_append

theorem feedAll_concat : feedAll take s (ms ++ [a]) = feed take (feedAll take s ms) a := by
  rw [feedAll_append]
  rfl

/-- A message completes a pair if another one waits for it. -/
theorem feed_pairs : (feed take s a).pairs =
    s.pairs ++ (s.waiting.map fun b => (b, a)).toList := by
  unfold feed
  split
  · next b hb => simp [pairs, hb, Item.pair?]
  · next hb =>
    split
    · simp [pairs, hb, Item.pair?]
    · simp [pairs, hb]
    · simp [pairs, between, hb]

/-- Taken one by one, a stream gives the items that `receive` takes. -/
theorem feedAll_receive : ∀ (ended : List (List (Item α))) (items : List (Item α)) {ms : List α}
    {r : List (Item α) × List α}, receive take ms = some r →
      feedAll take ⟨ended, items, none⟩ ms =
        feedAll take (between (ended ++ [items ++ r.1])) r.2
  | ended, items, [a], r, h => by
    unfold receive at h
    split at h
    · next ha =>
      cases h
      simp [feedAll, feed, ha]
    · cases h
    · cases h
  | ended, items, a :: b :: rest, r, h => by
    unfold receive at h
    split at h
    · next ha =>
      cases h
      simp [feedAll, feed, ha, between]
    · next ha =>
      obtain ⟨r', hr', rfl⟩ := Option.map_eq_some_iff.1 h
      have ih := feedAll_receive ended (items ++ [.alone a]) hr'
      simpa [feedAll, feed, ha, push] using ih
    · next ha =>
      obtain ⟨r', hr', rfl⟩ := Option.map_eq_some_iff.1 h
      have ih := feedAll_receive ended (items ++ [.pair a b]) hr'
      simpa [feedAll, feed, ha, push] using ih

/-! ## What more messages add -/

/-- `s'` has what `s` has: the streams that ended, and the items of the current
    one, which may have ended. -/
def Extends (s s' : Intake α) : Prop :=
  (s'.ended = s.ended ∧ s.items <+: s'.items) ∨
    ∃ items more, s'.ended = s.ended ++ items :: more ∧ s.items <+: items

theorem Extends.refl : Extends s s := Or.inl ⟨rfl, List.prefix_rfl⟩

theorem Extends.trans (h : Extends s s') (h' : Extends s' s'') : Extends s s'' := by
  rcases h with ⟨hended, hitems⟩ | ⟨items, more, hended, hitems⟩
  · rcases h' with ⟨hended', hitems'⟩ | ⟨items', more', hended', hitems'⟩
    · exact Or.inl ⟨hended'.trans hended, hitems.trans hitems'⟩
    · exact Or.inr ⟨items', more', by rw [hended', hended], hitems.trans hitems'⟩
  · rcases h' with ⟨hended', -⟩ | ⟨items', more', hended', -⟩
    · exact Or.inr ⟨items, more, hended'.trans hended, hitems⟩
    · exact Or.inr ⟨items, more ++ items' :: more', by simp [hended', hended], hitems⟩

theorem feed_extends : Extends s (feed take s a) := by
  unfold feed
  split
  · exact Or.inl ⟨rfl, List.prefix_append _ _⟩
  · split
    · exact Or.inl ⟨rfl, List.prefix_append _ _⟩
    · exact Or.inl ⟨rfl, List.prefix_rfl⟩
    · exact Or.inr ⟨s.items, [], rfl, List.prefix_rfl⟩

theorem feedAll_extends : ∀ {ms : List α} {s : Intake α}, Extends s (feedAll take s ms)
  | [], _ => Extends.refl
  | _ :: _, _ => feed_extends.trans feedAll_extends

section Beginning

variable {pre : List α} {streams : List (List (Item α))}

/-- A receiver that got the beginning of a sequence of streams has the items of
    the first of them. -/
theorem feedAll_ended (h : feedAll take s ms = between streams) (hpre : pre <+: ms) :
    (feedAll take s pre).ended <+: streams := by
  obtain ⟨post, rfl⟩ := hpre
  rw [feedAll_append] at h
  have hext : Extends (feedAll take s pre) (feedAll take (feedAll take s pre) post) :=
    feedAll_extends
  rw [h] at hext
  rcases hext with ⟨hended, -⟩ | ⟨items, more, hended, -⟩
  · exact hended ▸ List.prefix_rfl
  · exact ⟨items :: more, hended.symm⟩

/-- The items of the stream that it is in are the first ones of that stream;
    there are none after the last stream. -/
theorem feedAll_items (h : feedAll take s ms = between streams) (hpre : pre <+: ms) :
    (feedAll take s pre).items <+: (streams[(feedAll take s pre).ended.length]?).getD [] := by
  obtain ⟨post, rfl⟩ := hpre
  rw [feedAll_append] at h
  have hext : Extends (feedAll take s pre) (feedAll take (feedAll take s pre) post) :=
    feedAll_extends
  rw [h] at hext
  rcases hext with ⟨hended, hitems⟩ | ⟨items, more, hended, hitems⟩
  · have hnone : streams[(feedAll take s pre).ended.length]? = none := by
      rw [List.getElem?_eq_none_iff, ← hended]
      exact Nat.le_refl _
    rw [hnone]
    exact hitems
  · have hsome : streams[(feedAll take s pre).ended.length]? = some items := by
      have hstreams : streams = (feedAll take s pre).ended ++ items :: more := hended
      rw [hstreams, List.getElem?_append_right (Nat.le_refl _), Nat.sub_self]
      rfl
    rw [hsome]
    exact hitems

end Beginning

end Intake

end Framing
