/-
  Counted loops as functions on states, and the rules to reason about them.

  * `forN n body` runs `body 0`, …, `body (n - 1)`; `forLoop start stop step`
    is the C loop `for (i = start; i < stop; i += step)`, the number of its
    rounds being `rounds start stop step`.
  * `forN?` and `forLoop?` are the same loops with a body that may not return.
  * `searchN` and `searchLoop` are loops without a state whose rounds may
    return a value from the function they stand in.
  * `loopValues start stop step` lists the values that the loop runs over; the
    loop is the fold over them (`forLoop_eq_foldl`).
  * The rules: an invariant indexed by the round, for both (`forN_induct`,
    `forN?_induct`); one kept by the rounds that return (`forN?_keeps`); the
    loop that is left when all rounds return (`forLoop?_eq_some`);
    observations of states (`forLoop_map`, `forLoop_same`); a relation between
    the states of two runs (`forLoop_related`, `forN?_related`).
-/
import Mathlib.Order.Nat
import Mathlib.Data.Nat.Notation

namespace Loop

universe u v

variable {σ : Type*}

/-- Run `body 0`, …, `body (n - 1)`. -/
def forN : ℕ → (ℕ → σ → σ) → σ → σ
  | 0, _, s => s
  | n + 1, body, s => body n (forN n body s)

/-- Run `body 0`, …, `body (n - 1)`, each of which may not return. -/
def forN? : ℕ → (ℕ → σ → Option σ) → σ → Option σ
  | 0, _, s => some s
  | n + 1, body, s => (forN? n body s).bind (body n)

/-- The number of rounds of `for (i = start; i < stop; i += step)`. -/
def rounds (start stop step : ℕ) : ℕ := (stop - start + (step - 1)) / step

/-- `for (i = start; i < stop; i += step) body(i)`. -/
def forLoop (start stop step : ℕ) (body : ℕ → σ → σ) : σ → σ :=
  forN (rounds start stop step) fun k => body (start + step * k)

/-- `for (i = start; i < stop; i += step) body(i)`, with a body that may not return. -/
def forLoop? (start stop step : ℕ) (body : ℕ → σ → Option σ) : σ → Option σ :=
  forN? (rounds start stop step) fun k => body (start + step * k)

/-- Run `body 0`, …, `body (n - 1)` until one of them returns a value. -/
def searchN {α : Type*} : ℕ → (ℕ → Option α) → Option α
  | 0, _ => none
  | n + 1, body => (searchN n body).or (body n)

/-- `for (i = start; i < stop; i += step) body(i)`, where `body` may return from the function. -/
def searchLoop {α : Type*} (start stop step : ℕ) (body : ℕ → Option α) : Option α :=
  searchN (rounds start stop step) fun k => body (start + step * k)

/-- The values of `i` in `for (i = start; i < stop; i += step)`. -/
def loopValues (start stop step : ℕ) : List ℕ :=
  (List.range (rounds start stop step)).map fun k => start + step * k

@[simp] theorem rounds_one (start stop : ℕ) : rounds start stop 1 = stop - start := by
  simp [rounds]

/-- The rounds stay below `stop`. -/
theorem lt_of_lt_rounds {start stop step k : ℕ} (h : k < rounds start stop step) :
    start + step * k < stop := by
  unfold rounds at h
  have hmul : (k + 1) * step ≤ stop - start + (step - 1) :=
    (Nat.mul_le_mul_right step h).trans (Nat.div_mul_le_self _ _)
  have hstep : step ≠ 0 := by
    rintro rfl
    rw [Nat.div_zero] at h
    exact absurd h (Nat.not_lt_zero k)
  rw [Nat.succ_mul, Nat.mul_comm] at hmul
  omega

section Rules

variable {body : ℕ → σ → σ} {s : σ} {n : ℕ}

/-- The invariant rule: what holds at first and is carried from each round to
    the next holds at the end. -/
theorem forN_induct (P : ℕ → σ → Prop) (h₀ : P 0 s)
    (hstep : ∀ k < n, ∀ s, P k s → P (k + 1) (body k s)) : P n (forN n body s) := by
  induction n with
  | zero => exact h₀
  | succ n ih =>
    have hn : P n (forN n body s) := by
      refine ih ?_
      intro k hk
      exact hstep k (hk.trans n.lt_succ_self)
    exact hstep n n.lt_succ_self _ hn

/-- What every round keeps, the loop keeps. -/
theorem forLoop_keeps (P : σ → Prop) {start stop step : ℕ}
    (h : ∀ k, start ≤ k → k < stop → ∀ s, P s → P (body k s)) (h₀ : P s) :
    P (forLoop start stop step body s) :=
  forN_induct (fun _ => P) h₀ fun _ hk => h _ (Nat.le_add_right _ _) (lt_of_lt_rounds hk)

/-- A loop is the fold over its values. -/
theorem forLoop_eq_foldl (body : ℕ → σ → σ) (start stop step : ℕ) (s : σ) :
    forLoop start stop step body s =
      (loopValues start stop step).foldl (fun s i => body i s) s := by
  unfold forLoop loopValues
  rw [List.foldl_map]
  induction rounds start stop step with
  | zero => rfl
  | succ n ih => rw [forN, ih, List.range_succ, List.foldl_append, List.foldl_cons, List.foldl_nil]

/-- An observation of a loop whose rounds it commutes with. -/
theorem forLoop_map {τ : Type*} (f : σ → τ) {body' : ℕ → τ → τ}
    (h : ∀ k s, f (body k s) = body' k (f s)) (start stop step : ℕ) (s : σ) :
    f (forLoop start stop step body s) = forLoop start stop step body' (f s) := by
  unfold forLoop
  induction rounds start stop step with
  | zero => rfl
  | succ n ih => rw [forN, forN, h, ih]

/-- An observation that no round changes. -/
theorem forLoop_same {τ : Type*} (f : σ → τ) (h : ∀ k s, f (body k s) = f s)
    (start stop step : ℕ) (s : σ) : f (forLoop start stop step body s) = f s :=
  forN_induct (fun _ s' => f s' = f s) rfl fun _ _ s' hs' => (h _ s').trans hs'

end Rules

/-- A fold over lists of lists, list by list. -/
theorem foldlM_flatMap {m : Type u → Type v} [Monad m] [LawfulMonad m] {σ : Type u}
    {α β : Type*} (exec : σ → α → m σ) (calls : β → List α) (xs : List β) (s : σ) :
    (xs.flatMap calls).foldlM exec s = xs.foldlM (fun s x => (calls x).foldlM exec s) s := by
  induction xs generalizing s with
  | nil => rfl
  | cons x xs ih => simp [ih]

section TwoRuns

variable {σ' : Type*} {R : σ → σ' → Prop} {s : σ} {s' : σ'}

/-- Two runs of a loop, round by round. -/
theorem forN_related {body : ℕ → σ → σ} {body' : ℕ → σ' → σ'} {n : ℕ}
    (h : ∀ k < n, ∀ s s', R s s' → R (body k s) (body' k s')) (h₀ : R s s') :
    R (forN n body s) (forN n body' s') := by
  induction n with
  | zero => exact h₀
  | succ n ih =>
    have hn := ih fun k hk => h k (hk.trans n.lt_succ_self)
    exact h n n.lt_succ_self _ _ hn

theorem forLoop_related {body : ℕ → σ → σ} {body' : ℕ → σ' → σ'} {start stop step : ℕ}
    (h : ∀ k, start ≤ k → k < stop → ∀ s s', R s s' → R (body k s) (body' k s')) (h₀ : R s s') :
    R (forLoop start stop step body s) (forLoop start stop step body' s') :=
  forN_related (fun _ hk => h _ (Nat.le_add_right _ _) (lt_of_lt_rounds hk)) h₀

/-- Two runs of a loop that may not return: both return, or none. -/
theorem forN?_related {body : ℕ → σ → Option σ} {body' : ℕ → σ' → Option σ'} {n : ℕ}
    (h : ∀ k < n, ∀ s s', R s s' → Option.Rel R (body k s) (body' k s')) (h₀ : R s s') :
    Option.Rel R (forN? n body s) (forN? n body' s') := by
  induction n with
  | zero => exact .some h₀
  | succ n ih =>
    have hn := ih fun k hk => h k (hk.trans n.lt_succ_self)
    rw [forN?, forN?]
    generalize forN? n body s = r, forN? n body' s' = r' at hn
    cases hn with
    | some hn => exact h n n.lt_succ_self _ _ hn
    | none => exact .none

end TwoRuns

section PartialRules

variable {body : ℕ → σ → Option σ} {s : σ} {n : ℕ}

/-- The invariant rule for loops that may not return: when every round returns
    from the states of the invariant, so does the loop. -/
theorem forN?_induct (P : ℕ → σ → Prop) (h₀ : P 0 s)
    (hstep : ∀ k < n, ∀ s, P k s → ∃ s', body k s = some s' ∧ P (k + 1) s') :
    ∃ s', forN? n body s = some s' ∧ P n s' := by
  induction n with
  | zero => exact ⟨s, rfl, h₀⟩
  | succ n ih =>
    obtain ⟨t, ht, hP⟩ := ih fun k hk => hstep k (hk.trans n.lt_succ_self)
    obtain ⟨s', hs', hP'⟩ := hstep n n.lt_succ_self t hP
    refine ⟨s', ?_, hP'⟩
    rw [forN?, ht, Option.bind_some, hs']

/-- What every round that returns keeps, a loop that returns keeps. -/
theorem forN?_keeps (P : σ → Prop) (hstep : ∀ k s s', body k s = some s' → P s → P s')
    {s' : σ} (h : forN? n body s = some s') (h₀ : P s) : P s' := by
  induction n generalizing s' with
  | zero => exact Option.some.inj h ▸ h₀
  | succ n ih =>
    obtain ⟨t, ht, hs'⟩ := Option.bind_eq_some_iff.1 h
    exact hstep n t s' hs' (ih ht)

/-- A loop all of whose rounds return is the loop without a check. -/
theorem forLoop?_eq_some {body' : ℕ → σ → σ} {start stop step : ℕ}
    (h : ∀ k, start ≤ k → k < stop → ∀ s, body k s = some (body' k s)) (s : σ) :
    forLoop? start stop step body s = some (forLoop start stop step body' s) := by
  unfold forLoop? forLoop
  generalize hr : rounds start stop step = r
  have hall : ∀ k < r, ∀ s, body (start + step * k) s = some (body' (start + step * k) s) := by
    intro k hk
    exact h _ (Nat.le_add_right _ _) (lt_of_lt_rounds (hr ▸ hk))
  clear hr
  induction r with
  | zero => rfl
  | succ r ih =>
    rw [forN?, ih fun k hk => hall k (hk.trans r.lt_succ_self), Option.bind_some,
      hall r r.lt_succ_self, forN]

/-- The rounds of a loop that returns. -/
theorem forN?_round {s' : σ} (h : forN? n body s = some s') {k : ℕ} (hk : k < n) :
    ∃ t t', forN? k body s = some t ∧ body k t = some t' := by
  induction n generalizing s' with
  | zero => exact absurd hk (Nat.not_lt_zero k)
  | succ n ih =>
    obtain ⟨t, ht, hs'⟩ := Option.bind_eq_some_iff.1 h
    rcases Nat.lt_succ_iff_lt_or_eq.1 hk with hlt | rfl
    · exact ih ht hlt
    · exact ⟨t, s', ht, hs'⟩

end PartialRules

section SearchRules

variable {α : Type*} {body : ℕ → Option α} {n : ℕ}

/-- A loop returns nothing iff no round does. -/
theorem searchN_eq_none_iff : searchN n body = none ↔ ∀ k < n, body k = none := by
  induction n with
  | zero => simp [searchN]
  | succ n ih => rw [searchN, Option.or_eq_none_iff, ih, Nat.forall_lt_succ_right]

/-- What a loop returns, one of its rounds returned. -/
theorem exists_round_of_searchN {v : α} (h : searchN n body = some v) :
    ∃ k < n, body k = some v := by
  induction n with
  | zero => cases h
  | succ n ih =>
    rcases Option.or_eq_some_iff.1 h with hrest | ⟨-, hlast⟩
    · obtain ⟨k, hk, hv⟩ := ih hrest
      exact ⟨k, hk.trans n.lt_succ_self, hv⟩
    · exact ⟨n, n.lt_succ_self, hlast⟩

/-- A check that fails in the first round that returns `false`: it succeeds
    iff no round returns. -/
theorem searchN_check_iff {body : ℕ → Option Bool} (h : ∀ k, body k ≠ some true) :
    (searchN n body).getD true = true ↔ ∀ k < n, body k = none := by
  rw [← searchN_eq_none_iff]
  cases hs : searchN n body with
  | none => simp
  | some v =>
    obtain ⟨k, -, hv⟩ := exists_round_of_searchN hs
    cases v with
    | false => simp
    | true => exact absurd hv (h k)

end SearchRules

end Loop
