import Mathlib.Logic.Basic

/-!
# Processes that share a state

A process asks its surroundings for one thing at a time and goes on with the answer. `Sound ok p s`
says that `p`, started in the state `s`, may only make requests that are allowed, and ends in `ok`
if it succeeds, whatever the others do to the state between any two of its requests. What they do
is bounded by a relation that grows, and `ok` has to survive it.
-/

/-- A process with requests, their replies, errors and a result. -/
inductive Process (Request : Type) (Reply : Request → Type) (ε α : Type) where
  | pure (a : α)
  | throw (e : ε)
  | call (request : Request) (next : Except ε (Reply request) → Process Request Reply ε α)

namespace Process

variable {Request : Type} {Reply : Request → Type} {ε α β σ : Type}

/-- Run one process after another, unless the first fails. -/
def bind : Process Request Reply ε α → (α → Process Request Reply ε β) →
    Process Request Reply ε β
  | .pure a, f => f a
  | .throw e, _ => .throw e
  | .call request next, f => .call request fun reply => (next reply).bind f

instance : Monad (Process Request Reply ε) where
  pure := .pure
  bind := bind

/-- Make a request, and fail if it fails. -/
def perform (request : Request) : Process Request Reply ε (Reply request) :=
  .call request fun
    | .ok reply => .pure reply
    | .error e => .throw e

/-- Run a process and return its outcome. -/
def attempt : Process Request Reply ε α → Process Request Reply ε (Except ε α)
  | .pure a => .pure (.ok a)
  | .throw e => .pure (.error e)
  | .call request next => .call request fun reply => (next reply).attempt

/-- What a process needs of its surroundings. -/
structure Surroundings (Request : Type) (Reply : Request → Type) (ε σ : Type) where
  /-- What a request may answer, and the state after it. -/
  acts : (request : Request) → σ → Except ε (Reply request) → σ → Prop
  /-- What the others do to the state. -/
  grows : σ → σ → Prop
  /-- The requests that may be made in a state. -/
  allowed : Request → σ → Prop
  acts_grows : ∀ {request s reply t}, acts request s reply t → grows s t
  refl : ∀ s, grows s s
  trans : ∀ {s t u}, grows s t → grows t u → grows s u

variable (world : Surroundings Request Reply ε σ) {ok : α → σ → Prop}

/-- Every request is allowed, and the result holds at the end. -/
def Sound (ok : α → σ → Prop) : Process Request Reply ε α → σ → Prop
  | .pure a, s => ok a s
  | .throw _, _ => True
  | .call request next, s => ∀ t, world.grows s t → world.allowed request t
      ∧ ∀ reply u, world.acts request t reply u → Sound ok (next reply) u

variable {world}

lemma Sound.mono {ok' : α → σ → Prop} (h : ∀ a s, ok a s → ok' a s)
    {p : Process Request Reply ε α} {s : σ} (hp : p.Sound world ok s) : p.Sound world ok' s := by
  induction p generalizing s with
  | pure a => exact h a s hp
  | throw e => trivial
  | call request next ih =>
    intro t ht
    obtain ⟨hallowed, hnext⟩ := hp t ht
    exact ⟨hallowed, fun reply u hu => ih reply (hnext reply u hu)⟩

/-- What others do does not spoil a process whose result survives it. -/
lemma Sound.grows (hstable : ∀ a s t, world.grows s t → ok a s → ok a t)
    {p : Process Request Reply ε α} {s t : σ} (hp : p.Sound world ok s) (hgrows : world.grows s t) :
    p.Sound world ok t := by
  cases p with
  | pure a => exact hstable a s t hgrows hp
  | throw e => trivial
  | call request next => exact fun u hu => hp u (world.trans hgrows hu)

/-- What survives the growth of the state holds beside the result. -/
lemma Sound.frame {keep : σ → Prop} (hstable : ∀ s t, world.grows s t → keep s → keep t)
    {p : Process Request Reply ε α} {s : σ} (hp : p.Sound world ok s) (hs : keep s) :
    p.Sound world (fun a t => ok a t ∧ keep t) s := by
  induction p generalizing s with
  | pure a => exact ⟨hp, hs⟩
  | throw e => trivial
  | call request next ih =>
    intro t ht
    obtain ⟨hallowed, hnext⟩ := hp t ht
    refine ⟨hallowed, fun reply u hu => ih reply (hnext reply u hu) ?_⟩
    exact hstable s u (world.trans ht (world.acts_grows hu)) hs

lemma sound_bind {ok : β → σ → Prop} {p : Process Request Reply ε α}
    {f : α → Process Request Reply ε β} {s : σ}
    (h : p.Sound world (fun a t => (f a).Sound world ok t) s) : (p >>= f).Sound world ok s := by
  show (p.bind f).Sound world ok s
  induction p generalizing s with
  | pure a => exact h
  | throw e => trivial
  | call request next ih =>
    intro t ht
    obtain ⟨hallowed, hnext⟩ := h t ht
    exact ⟨hallowed, fun reply u hu => ih reply (hnext reply u hu)⟩

lemma sound_perform {request : Request} {ok : Reply request → σ → Prop} {s : σ}
    (h : ∀ t, world.grows s t → world.allowed request t
      ∧ ∀ reply u, world.acts request t (.ok reply) u → ok reply u) :
    (perform request : Process Request Reply ε (Reply request)).Sound world ok s := by
  intro t ht
  obtain ⟨hallowed, hreply⟩ := h t ht
  refine ⟨hallowed, fun reply u hu => ?_⟩
  cases reply with
  | ok reply => exact hreply reply u hu
  | error e => trivial

/-- The outcome of a process says what its success would. -/
lemma sound_attempt {p : Process Request Reply ε α} {s : σ} (h : p.Sound world ok s) :
    p.attempt.Sound world (fun result t => ∀ a, result = .ok a → ok a t) s := by
  induction p generalizing s with
  | pure a =>
    intro b hb
    cases hb
    exact h
  | throw e => nofun
  | call request next ih =>
    intro t ht
    obtain ⟨hallowed, hnext⟩ := h t ht
    exact ⟨hallowed, fun reply u hu => ih reply (hnext reply u hu)⟩

/-- A loop, where the invariant speaks of the elements done so far. -/
lemma sound_forM {f : α → Process Request Reply ε PUnit} (l : List α) (inv : List α → σ → Prop)
    (hstep : ∀ done a t, done ++ [a] <+: l → inv done t →
      (f a).Sound world (fun _ u => inv (done ++ [a]) u) t) {s : σ} (h : inv [] s) :
    (forM l f).Sound world (fun _ t => inv l t) s := by
  suffices hrest : ∀ rest done t, l = done ++ rest → inv done t →
      (forM rest f).Sound world (fun _ u => inv l u) t from hrest l [] s rfl h
  intro rest
  induction rest with
  | nil =>
    intro done t hl hinv
    rw [List.append_nil] at hl
    subst hl
    exact hinv
  | cons a rest ih =>
    intro done t hl hinv
    have hl' : l = (done ++ [a]) ++ rest := by rw [hl, List.append_cons]
    refine sound_bind (f := fun _ => forM rest f) ?_
    apply (hstep done a t ⟨rest, hl'.symm⟩ hinv).mono
    intro _ u hu
    exact ih (done ++ [a]) u hl' hu

end Process
