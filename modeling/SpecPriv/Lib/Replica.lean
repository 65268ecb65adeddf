/-
  Replicas that follow a memory by updates.

  A memory is published from time to time, and a replica of it is brought from
  one version to the next by a batch of updates, applied one by one.  An update
  writes what the new version has, at some places of a set `P`; a whole batch
  makes the replica of a version one of the next version, on `P`.

  `Chain apply P versions batches` says this of a list of versions.
  `Chain.follows`: a replica that got some batches, and the first updates of
  another one, has at every place of `P` the value of the version it got to or
  of the next one, and nothing but the former if it is between two batches;
  `Chain.outside`: at other places it never changes.

  Updates that treat every place on its own may come from several sources: at
  a place, only those that change it matter (`Pointwise.applyAll_filter`).
-/
import Mathlib.Data.Set.Function

namespace Replica

variable {X V β : Type*}

/-- From `r` to `r'` some places of `P` get what `m` has, and nothing else
    changes. -/
def Towards (P : Set X) (m r r' : X → V) : Prop := ∀ x, r' x = r x ∨ (x ∈ P ∧ r' x = m x)

/-- Apply updates, one after the other. -/
def applyAll (apply : β → (X → V) → X → V) (us : List β) (r : X → V) : X → V :=
  us.foldl (fun r u => apply u r) r

/-- The updates bring replicas of `m` to `m'`. -/
structure Brings (apply : β → (X → V) → X → V) (P : Set X) (m m' : X → V) (us : List β) :
    Prop where
  towards : ∀ u ∈ us, ∀ r, Towards P m' r (apply u r)
  complete : ∀ r, Set.EqOn r m P → Set.EqOn (applyAll apply us r) m' P

/-- Every batch brings replicas of a version to the next one. -/
inductive Chain (apply : β → (X → V) → X → V) (P : Set X) :
    List (X → V) → List (List β) → Prop
  | one (m : X → V) : Chain apply P [m] []
  | cons {m m' : X → V} {us : List β} {versions : List (X → V)} {batches : List (List β)}
      (h : Brings apply P m m' us) (hrest : Chain apply P (m' :: versions) batches) :
      Chain apply P (m :: m' :: versions) (us :: batches)

variable {apply : β → (X → V) → X → V} {P : Set X} {m m' r r' r'' : X → V} {us us' : List β}
  {versions : List (X → V)} {batches : List (List β)}

theorem Towards.refl : Towards P m r r := fun _ => Or.inl rfl

theorem Towards.trans (h : Towards P m r r') (h' : Towards P m r' r'') : Towards P m r r'' := by
  intro x
  rcases h' x with hx' | hx'
  · rcases h x with hx | ⟨hP, hx⟩
    · exact Or.inl (hx'.trans hx)
    · exact Or.inr ⟨hP, hx'.trans hx⟩
  · exact Or.inr hx'

theorem Towards.outside (h : Towards P m r r') {x : X} (hx : x ∉ P) : r' x = r x := by
  rcases h x with h | ⟨hP, -⟩
  · exact h
  · exact absurd hP hx

theorem applyAll_append :
    applyAll apply (us ++ us') r = applyAll apply us' (applyAll apply us r) :=
  List.foldl_append

theorem applyAll_towards (h : ∀ u ∈ us, ∀ r, Towards P m r (apply u r)) (r : X → V) :
    Towards P m r (applyAll apply us r) := by
  induction us generalizing r with
  | nil => exact Towards.refl
  | cons u us ih =>
    have hrest : ∀ v ∈ us, ∀ r, Towards P m r (apply v r) := by
      intro v hv
      exact h v (List.mem_cons_of_mem u hv)
    exact (h u List.mem_cons_self r).trans (ih hrest (apply u r))

namespace Chain

theorem length_eq (h : Chain apply P versions batches) :
    versions.length = batches.length + 1 := by
  induction h with
  | one m => rfl
  | cons _ _ ih => simpa using ih

/-- A chain goes on from its last version. -/
theorem concat (h : Chain apply P versions batches) (hlast : versions.getLast? = some m)
    (hus : Brings apply P m m' us) : Chain apply P (versions ++ [m']) (batches ++ [us]) := by
  induction h with
  | one m₀ =>
    obtain rfl : m₀ = m := by simpa using hlast
    exact .cons hus (.one m')
  | cons hfirst _ ih =>
    refine .cons hfirst (ih ?_)
    rwa [List.getLast?_cons_cons] at hlast

/-- **A replica follows the versions**: after some whole batches, and the first
    updates of the next one, every place of `P` has the value of the version
    that the replica got to, or of the next one. -/
theorem follows (h : Chain apply P versions batches) {done : List (List β)} {part : List β}
    (hr : ∀ m ∈ versions.head?, Set.EqOn r m P) (hdone : done <+: batches)
    (hpart : part <+: (batches[done.length]?).getD []) :
    ∃ m, versions[done.length]? = some m ∧
      (∀ x ∈ P, applyAll apply (done.flatten ++ part) r x = m x ∨
        ∃ m', versions[done.length + 1]? = some m' ∧
          applyAll apply (done.flatten ++ part) r x = m' x) ∧
      (part = [] → Set.EqOn (applyAll apply (done.flatten ++ part) r) m P) := by
  induction h generalizing r done with
  | one m =>
    obtain rfl := List.prefix_nil.1 hdone
    obtain rfl : part = [] := by simpa using hpart
    have hrm : Set.EqOn r m P := hr m rfl
    refine ⟨m, rfl, ?_, fun _ => hrm⟩
    intro x hx
    exact Or.inl (hrm hx)
  | @cons m m' us versions batches hus _ ih =>
    have hrm : Set.EqOn r m P := hr m rfl
    cases done with
    | nil =>
      -- in the first batch
      have hpart' : part <+: us := hpart
      have htowards : Towards P m' r (applyAll apply part r) := by
        refine applyAll_towards ?_ r
        intro u hu
        exact hus.towards u (hpart'.subset hu)
      refine ⟨m, rfl, ?_, ?_⟩
      · intro x hx
        rcases htowards x with hold | ⟨-, hnew⟩
        · exact Or.inl (hold.trans (hrm hx))
        · exact Or.inr ⟨m', rfl, hnew⟩
      · rintro rfl
        exact hrm
    | cons d done =>
      obtain ⟨rfl, hdone'⟩ := List.cons_prefix_cons.1 hdone
      have hr' : ∀ m₁ ∈ (m' :: versions).head?, Set.EqOn (applyAll apply d r) m₁ P := by
        intro m₁ hm₁
        obtain rfl : m' = m₁ := Option.some.inj hm₁
        exact hus.complete r hrm
      have hrest := ih hr' hdone' (by simpa using hpart)
      simpa only [List.flatten_cons, List.append_assoc, applyAll_append, List.length_cons,
        List.getElem?_cons_succ] using hrest

/-- Updates of a chain change places of `P` only. -/
theorem outside (h : Chain apply P versions batches) {done : List (List β)} {part : List β}
    (hdone : done <+: batches) (hpart : part <+: (batches[done.length]?).getD []) {x : X}
    (hx : x ∉ P) : applyAll apply (done.flatten ++ part) r x = r x := by
  induction h generalizing r done with
  | one m =>
    obtain rfl := List.prefix_nil.1 hdone
    obtain rfl : part = [] := by simpa using hpart
    rfl
  | @cons m m' us versions batches hus _ ih =>
    cases done with
    | nil =>
      have hpart' : part <+: us := hpart
      refine (applyAll_towards (m := m') (P := P) ?_ r).outside hx
      intro u hu
      exact hus.towards u (hpart'.subset hu)
    | cons d done =>
      obtain ⟨rfl, hdone'⟩ := List.cons_prefix_cons.1 hdone
      have hrest := ih (r := applyAll apply d r) hdone' (by simpa using hpart)
      rw [List.flatten_cons, List.append_assoc, applyAll_append, hrest]
      exact (applyAll_towards hus.towards r).outside hx

end Chain

/-! ## Places on their own -/

/-- What an update makes of a place depends on that place only. -/
def Pointwise (apply : β → (X → V) → X → V) : Prop :=
  ∀ u r r' x, r x = r' x → apply u r x = apply u r' x

theorem Pointwise.applyAll (h : Pointwise apply) {x : X} (hx : r x = r' x) :
    applyAll apply us r x = applyAll apply us r' x := by
  induction us generalizing r r' with
  | nil => exact hx
  | cons u us ih => exact ih (h u r r' x hx)

/-- At a place, the updates that leave it alone do not matter. -/
theorem Pointwise.applyAll_filter (h : Pointwise apply) {x : X} {p : β → Bool}
    (hskip : ∀ u ∈ us, ¬ p u → ∀ r, apply u r x = r x) (r : X → V) :
    Replica.applyAll apply us r x = Replica.applyAll apply (us.filter p) r x := by
  induction us generalizing r with
  | nil => rfl
  | cons u us ih =>
    have hrest : ∀ v ∈ us, ¬ p v → ∀ r, apply v r x = r x := by
      intro v hv
      exact hskip v (List.mem_cons_of_mem u hv)
    by_cases hp : p u
    · rw [List.filter_cons_of_pos hp]
      exact ih hrest (apply u r)
    · rw [List.filter_cons_of_neg hp, ← ih hrest r]
      exact h.applyAll (hskip u List.mem_cons_self hp r)

end Replica
