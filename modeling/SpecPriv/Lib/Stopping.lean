/-
  Programs that may stop.

  A program takes a state to the state in which it returns (`.ok`), or to the
  one in which it stopped (`.error`): at a fault, or for want of fuel.

  * `Keeps P f`: wherever `f` ends, what `P` says still holds (`KeepsVal` for
    programs that give a value);
  * `Returns I f`: from the states of `I`, `f` returns to one of them.

  Both are closed under sequences, and `Keeps` under loops; `forN_induct` is the
  rule with an invariant for every round, and `forLoop_eq_foldlM` takes a loop
  for the fold over its values.
-/
import SpecPriv.Lib.Loop

namespace Stopping

open Loop

universe u

variable {σ : Type u}

/-- The state in which a program ends. -/
def last : Except σ σ → σ
  | .ok s => s
  | .error s => s

@[simp] theorem last_ok (s : σ) : last (.ok s) = s := rfl

@[simp] theorem last_error (s : σ) : last (.error s) = s := rfl

/-- The state in which a program that gives a value ends. -/
def lastVal {α : Type*} : Except σ (α × σ) → σ
  | .ok r => r.2
  | .error s => s

@[simp] theorem lastVal_ok {α : Type*} (r : α × σ) : lastVal (.ok r) = r.2 := rfl

/-- Run `body 0`, …, `body (n - 1)`, each of which may stop. -/
def forN : ℕ → (ℕ → σ → Except σ σ) → σ → Except σ σ
  | 0, _, s => .ok s
  | n + 1, body, s => forN n body s >>= body n

/-- `for (i = start; i < stop; i += step) body(i)`, with a body that may stop. -/
def forLoop (start stop step : ℕ) (body : ℕ → σ → Except σ σ) : σ → Except σ σ :=
  forN (rounds start stop step) fun k => body (start + step * k)

/-- The outcome of a program, seen through `f`. -/
def see {τ : Type u} (f : σ → τ) : Except σ σ → Except τ τ
  | .ok s => .ok (f s)
  | .error s => .error (f s)

theorem last_see {τ : Type u} (f : σ → τ) (x : Except σ σ) : last (see f x) = f (last x) := by
  cases x <;> rfl

section Bind

variable {ε : Type*} {α β : Type u}

@[simp] theorem bind_ok (a : α) (f : α → Except ε β) : (Except.ok a >>= f) = f a := rfl

@[simp] theorem bind_error (e : ε) (f : α → Except ε β) : (Except.error e >>= f) = .error e := rfl

/-- When a sequence returns, both its parts do. -/
theorem bind_eq_ok {x : Except ε α} {f : α → Except ε β} {b : β} (h : (x >>= f) = .ok b) :
    ∃ a, x = .ok a ∧ f a = .ok b := by
  cases x with
  | error e => cases h
  | ok a => exact ⟨a, rfl, h⟩

end Bind

/-- Wherever `f` ends, `P` still holds. -/
def Keeps (P : σ → Prop) (f : σ → Except σ σ) : Prop := ∀ s, P s → P (last (f s))

/-- Wherever `f` ends, `P` still holds, when `f` also gives a value. -/
def KeepsVal {α : Type u} (P : σ → Prop) (f : σ → Except σ (α × σ)) : Prop :=
  ∀ s, P s → P (lastVal (f s))

/-- From the states of `I`, `f` returns to one of them. -/
def Returns (I : σ → Prop) (f : σ → Except σ σ) : Prop := ∀ s, I s → ∃ s', f s = .ok s' ∧ I s'

variable {P I : σ → Prop} {f g : σ → Except σ σ} {body : ℕ → σ → Except σ σ} {n : ℕ} {s : σ}

namespace Keeps

theorem ok : Keeps P Except.ok := fun _ hs => hs

/-- What holds where a program ends, the next one keeps. -/
theorem last_bind (hg : Keeps P g) {x : Except σ σ} (hx : P (last x)) : P (last (x >>= g)) := by
  cases x with
  | error s => exact hx
  | ok s => exact hg s hx

theorem bind (hf : Keeps P f) (hg : Keeps P g) : Keeps P fun s => f s >>= g :=
  fun s hs => hg.last_bind (hf s hs)

theorem forN (h : ∀ k < n, Keeps P (body k)) : Keeps P (Stopping.forN n body) := by
  induction n with
  | zero => exact ok
  | succ n ih =>
    have hn := ih fun k hk => h k (hk.trans n.lt_succ_self)
    exact hn.bind (h n n.lt_succ_self)

theorem forLoop {start stop step : ℕ} (h : ∀ k, start ≤ k → k < stop → Keeps P (body k)) :
    Keeps P (Stopping.forLoop start stop step body) :=
  forN fun _ hk => h _ (Nat.le_add_right _ _) (lt_of_lt_rounds hk)

theorem foldlM {α : Type*} {exec : σ → α → Except σ σ} :
    ∀ {xs : List α}, (∀ x ∈ xs, Keeps P fun s => exec s x) → Keeps P fun s => xs.foldlM exec s
  | [], _ => ok
  | x :: xs, h => by
    have hxs : Keeps P fun s => xs.foldlM exec s :=
      foldlM fun y hy => h y (List.mem_cons_of_mem x hy)
    exact (h x List.mem_cons_self).bind hxs

end Keeps

namespace KeepsVal

variable {α β : Type u} {f : σ → Except σ (α × σ)}

theorem bindVal {g : α × σ → Except σ (β × σ)} (hf : KeepsVal P f)
    (hg : ∀ r, P r.2 → P (lastVal (g r))) : KeepsVal P fun s => f s >>= g := by
  intro s hs
  have h := hf s hs
  show P (lastVal (f s >>= g))
  cases hr : f s with
  | error s' => rwa [hr] at h
  | ok r =>
    rw [hr] at h
    exact hg r h

theorem bind {g : α × σ → Except σ σ} (hf : KeepsVal P f) (hg : ∀ r, P r.2 → P (last (g r))) :
    Keeps P fun s => f s >>= g := by
  intro s hs
  have h := hf s hs
  show P (last (f s >>= g))
  cases hr : f s with
  | error s' => rwa [hr] at h
  | ok r =>
    rw [hr] at h
    exact hg r h

/-- The value is dropped. -/
theorem drop (hf : KeepsVal P f) : Keeps P fun s => (f s).map Prod.snd := by
  intro s hs
  have h := hf s hs
  show P (last ((f s).map Prod.snd))
  cases hr : f s with
  | error s' => rwa [hr] at h
  | ok r => rwa [hr] at h

end KeepsVal

namespace Returns

theorem ok : Returns I Except.ok := fun s hs => ⟨s, rfl, hs⟩

theorem bind (hf : Returns I f) (hg : Returns I g) : Returns I fun s => f s >>= g := by
  intro s hs
  obtain ⟨s', hs', hI⟩ := hf s hs
  obtain ⟨s'', hs'', hI'⟩ := hg s' hI
  refine ⟨s'', ?_, hI'⟩
  show (f s >>= g) = .ok s''
  rw [hs', bind_ok, hs'']

theorem foldlM {α : Type*} {exec : σ → α → Except σ σ} :
    ∀ {xs : List α}, (∀ x ∈ xs, Returns I fun s => exec s x) → Returns I fun s => xs.foldlM exec s
  | [], _ => ok
  | x :: xs, h => by
    have hxs : Returns I fun s => xs.foldlM exec s :=
      foldlM fun y hy => h y (List.mem_cons_of_mem x hy)
    exact (h x List.mem_cons_self).bind hxs

end Returns

/-- The invariant rule: when every round returns from the states of the
    invariant, so does the loop. -/
theorem forN_induct (P : ℕ → σ → Prop) (h₀ : P 0 s)
    (hstep : ∀ k < n, ∀ s, P k s → ∃ s', body k s = .ok s' ∧ P (k + 1) s') :
    ∃ s', forN n body s = .ok s' ∧ P n s' := by
  induction n with
  | zero => exact ⟨s, rfl, h₀⟩
  | succ n ih =>
    obtain ⟨t, ht, hP⟩ := ih fun k hk => hstep k (hk.trans n.lt_succ_self)
    obtain ⟨s', hs', hP'⟩ := hstep n n.lt_succ_self t hP
    refine ⟨s', ?_, hP'⟩
    rw [forN, ht, bind_ok, hs']

/-- A loop is the fold over its values. -/
theorem forLoop_eq_foldlM (body : ℕ → σ → Except σ σ) (start stop step : ℕ) (s : σ) :
    forLoop start stop step body s =
      (loopValues start stop step).foldlM (fun s i => body i s) s := by
  unfold forLoop loopValues
  rw [List.foldlM_map]
  induction rounds start stop step with
  | zero => rfl
  | succ n ih =>
    rw [forN, ih, List.range_succ, List.foldlM_append]
    congr 1
    funext t
    rw [List.foldlM_cons]
    exact (bind_pure (body (start + step * n) t)).symm

/-- A loop whose first round stops. -/
theorem forN_error {s' : σ} (h : body 0 s = .error s') (n : ℕ) :
    forN (n + 1) body s = .error s' := by
  induction n with
  | zero => rw [forN, forN, bind_ok, h]
  | succ n ih => rw [forN, ih, bind_error]

end Stopping
