import Mathlib.Tactic.Common

/-!
# Stateful code that may fail

`Fallible ε σ α` is a computation over a state `σ` that returns an `α` or fails with an `ε`, and
that keeps the state it had reached when it failed: the reading of a method with `&mut self` that
returns a `Result`. The lemmas below take a run of such code apart, one bind at a time.
-/

/-- Code over a state `σ` that may fail with `ε`, keeping the state it had reached. -/
abbrev Fallible (ε σ α : Type) := ExceptT ε (StateM σ) α

namespace Fallible

variable {ε σ τ α β : Type}

/-- Run a computation from a state. -/
def exec (m : Fallible ε σ α) (s : σ) : Except ε α × σ := StateT.run (ExceptT.run m) s

/-- A computation given by its runs. -/
def of (f : σ → Except ε α × σ) : Fallible ε σ α := ExceptT.mk f

/-- The outcome of pure fallible code. -/
def lift (r : Except ε α) : Fallible ε σ α := of fun s => (r, s)

/-- Run a computation on one part of a larger state. -/
def zoom (view : σ → τ) (update : τ → σ → σ) (m : Fallible ε τ α) : Fallible ε σ α :=
  of fun s => ((m.exec (view s)).1, update (m.exec (view s)).2 s)

@[simp] lemma exec_of (f : σ → Except ε α × σ) (s : σ) : (of f).exec s = f s := rfl

@[simp] lemma exec_pure (a : α) (s : σ) : (pure a : Fallible ε σ α).exec s = (.ok a, s) := rfl

@[simp] lemma exec_throw (e : ε) (s : σ) :
    (throw e : Fallible ε σ α).exec s = (.error e, s) := rfl

@[simp] lemma exec_get (s : σ) : (get : Fallible ε σ σ).exec s = (.ok s, s) := rfl

@[simp] lemma exec_set (t s : σ) : (set t : Fallible ε σ PUnit).exec s = (.ok ⟨⟩, t) := rfl

@[simp] lemma exec_modify (f : σ → σ) (s : σ) :
    (modify f : Fallible ε σ PUnit).exec s = (.ok ⟨⟩, f s) := rfl

@[simp] lemma exec_lift (r : Except ε α) (s : σ) : (lift r : Fallible ε σ α).exec s = (r, s) := rfl

@[simp] lemma exec_zoom (view : σ → τ) (update : τ → σ → σ) (m : Fallible ε τ α) (s : σ) :
    (zoom view update m).exec s = ((m.exec (view s)).1, update (m.exec (view s)).2 s) := rfl

/-- A bind runs the first part and, unless it failed, the second. -/
lemma exec_bind (m : Fallible ε σ α) (f : α → Fallible ε σ β) (s : σ) :
    (m >>= f).exec s
      = match m.exec s with
        | (.ok a, t) => (f a).exec t
        | (.error e, t) => (.error e, t) := by
  show (ExceptT.run (m >>= f)).run s = _
  rw [ExceptT.run_bind, StateT.run_bind]
  unfold exec
  cases h : (ExceptT.run m).run s with
  | mk r t => cases r <;> rfl

/-- A bind whose first part is known to succeed. -/
lemma exec_bind_of_ok {m : Fallible ε σ α} {f : α → Fallible ε σ β} {s t : σ} {a : α}
    (h : m.exec s = (.ok a, t)) : (m >>= f).exec s = (f a).exec t := by
  rw [exec_bind, h]

/-- A bind whose first part is known to fail. -/
lemma exec_bind_of_error {m : Fallible ε σ α} {f : α → Fallible ε σ β} {s t : σ} {e : ε}
    (h : m.exec s = (.error e, t)) : (m >>= f).exec s = (.error e, t) := by
  rw [exec_bind, h]

/-- A successful bind is a successful first part followed by a successful second one. -/
lemma exec_bind_eq_ok {m : Fallible ε σ α} {f : α → Fallible ε σ β} {s u : σ} {b : β} :
    (m >>= f).exec s = (.ok b, u)
      ↔ ∃ a t, m.exec s = (.ok a, t) ∧ (f a).exec t = (.ok b, u) := by
  rw [exec_bind]
  cases h : m.exec s with
  | mk r t => cases r <;> simp

/-- A failed bind failed in its first part, or in the second after the first. -/
lemma exec_bind_eq_error {m : Fallible ε σ α} {f : α → Fallible ε σ β} {s u : σ} {e : ε} :
    (m >>= f).exec s = (.error e, u)
      ↔ m.exec s = (.error e, u) ∨ ∃ a t, m.exec s = (.ok a, t) ∧ (f a).exec t = (.error e, u) := by
  rw [exec_bind]
  cases h : m.exec s with
  | mk r t => cases r <;> simp

/-- A guard that fails stops the computation, one that passes leaves it alone. -/
lemma exec_guard {p : Prop} [Decidable p] {e : ε} {f : PUnit → Fallible ε σ α}
    {m : Fallible ε σ α} (s : σ) :
    (if p then throw e >>= f else m).exec s = if p then (.error e, s) else m.exec s := by
  split <;> rfl

/-! ## Pure fallible code -/

/-- A successful bind of results is a successful first part followed by a successful second one. -/
lemma bind_eq_ok {m : Except ε α} {f : α → Except ε β} {b : β} :
    (m >>= f) = .ok b ↔ ∃ a, m = .ok a ∧ f a = .ok b := by
  cases m <;> simp [bind, Except.bind]

lemma toOption_eq_some {m : Except ε α} {a : α} : m.toOption = some a ↔ m = .ok a := by
  cases m <;> simp [Except.toOption]

/-- A guard passes exactly when its condition is false. -/
lemma guard_eq_ok {p : Prop} [Decidable p] {e : ε} {f : PUnit → Except ε α} {m : Except ε α}
    {a : α} : (if p then throw e >>= f else m) = .ok a ↔ ¬ p ∧ m = .ok a := by
  by_cases h : p <;> simp [h, throw, throwThe, MonadExceptOf.throw, bind, Except.bind]

/-- A failure comes from the first part of a computation or from the rest. -/
lemma bind_eq_error {m : Except ε α} {f : α → Except ε β} {e : ε} :
    (m >>= f) = .error e ↔ m = .error e ∨ ∃ a, m = .ok a ∧ f a = .error e := by
  cases m <;> simp [bind, Except.bind]

/-- A guard fails by its own condition, or it passes and the rest fails. -/
lemma guard_eq_error {p : Prop} [Decidable p] {e e' : ε} {f : PUnit → Except ε α}
    {m : Except ε α} :
    (if p then throw e >>= f else m) = .error e' ↔ (p ∧ e = e') ∨ (¬ p ∧ m = .error e') := by
  by_cases h : p <;> simp [h, throw, throwThe, MonadExceptOf.throw, bind, Except.bind]

lemma pure_eq_error {a : α} {e : ε} : (pure a : Except ε α) = .error e ↔ False := by
  simp [pure, Except.pure]

lemma pure_eq_ok {a b : α} : (pure a : Except ε α) = .ok b ↔ a = b := by
  simp [pure, Except.pure]

end Fallible
