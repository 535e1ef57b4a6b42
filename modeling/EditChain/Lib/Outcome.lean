import EditChain.Lib.Fallible

/-!
# Outcomes of stateful code that may fail

`wp m ok err s` says that the run of `m` from `s` ends well: with a result and a state in `ok`, or
with an error and a state in `err`. The rules below reduce it along a `do` block and over a loop.
-/

namespace Fallible

variable {ε σ τ α β : Type}

/-- What holds after a run, by its outcome. -/
def wp (m : Fallible ε σ α) (ok : α → σ → Prop) (err : ε → σ → Prop) (s : σ) : Prop :=
  match m.exec s with
  | (.ok a, t) => ok a t
  | (.error e, t) => err e t

variable {ok : α → σ → Prop} {err : ε → σ → Prop} {s : σ}

lemma wp_eq_ok {m : Fallible ε σ α} {a : α} {t : σ} (h : wp m ok err s)
    (hm : m.exec s = (.ok a, t)) : ok a t := by
  unfold wp at h
  rwa [hm] at h

lemma wp_eq_error {m : Fallible ε σ α} {e : ε} {t : σ} (h : wp m ok err s)
    (hm : m.exec s = (.error e, t)) : err e t := by
  unfold wp at h
  rwa [hm] at h

/-- Prove an outcome by cases on the run. -/
lemma wp_of_exec {m : Fallible ε σ α} (hok : ∀ a t, m.exec s = (.ok a, t) → ok a t)
    (herr : ∀ e t, m.exec s = (.error e, t) → err e t) : wp m ok err s := by
  unfold wp
  cases h : m.exec s with
  | mk r t =>
    cases r with
    | ok a => exact hok a t h
    | error e => exact herr e t h

/-- Weaken both postconditions. -/
lemma wp_mono {m : Fallible ε σ α} {ok' : α → σ → Prop} {err' : ε → σ → Prop}
    (h : wp m ok err s) (hok : ∀ a t, ok a t → ok' a t) (herr : ∀ e t, err e t → err' e t) :
    wp m ok' err' s := by
  apply wp_of_exec
  · intro a t hm
    exact hok a t (wp_eq_ok h hm)
  · intro e t hm
    exact herr e t (wp_eq_error h hm)

/-- The results may be weakened alone. -/
lemma wp_weaken {m : Fallible ε σ α} {ok' : α → σ → Prop} (h : wp m ok err s)
    (hok : ∀ a t, ok a t → ok' a t) : wp m ok' err s :=
  wp_mono h hok fun _ _ he => he

/-- Two outcomes of one run. -/
lemma wp_and {m : Fallible ε σ α} {ok' : α → σ → Prop} {err' : ε → σ → Prop}
    (h : wp m ok err s) (h' : wp m ok' err' s) :
    wp m (fun a t => ok a t ∧ ok' a t) (fun e t => err e t ∧ err' e t) s := by
  apply wp_of_exec
  · intro a t hm
    exact ⟨wp_eq_ok h hm, wp_eq_ok h' hm⟩
  · intro e t hm
    exact ⟨wp_eq_error h hm, wp_eq_error h' hm⟩

/-! ## Rules for the pieces of a `do` block -/

@[simp] lemma wp_pure (a : α) : wp (pure a : Fallible ε σ α) ok err s ↔ ok a s := Iff.rfl

@[simp] lemma wp_throw (e : ε) : wp (throw e : Fallible ε σ α) ok err s ↔ err e s := Iff.rfl

@[simp] lemma wp_get {ok : σ → σ → Prop} : wp (get : Fallible ε σ σ) ok err s ↔ ok s s := Iff.rfl

@[simp] lemma wp_modify {ok : PUnit → σ → Prop} (f : σ → σ) :
    wp (modify f : Fallible ε σ PUnit) ok err s ↔ ok ⟨⟩ (f s) := Iff.rfl

@[simp] lemma wp_set {ok : PUnit → σ → Prop} (t : σ) :
    wp (set t : Fallible ε σ PUnit) ok err s ↔ ok ⟨⟩ t := Iff.rfl

/-- A bind is the first part, followed by the second unless the first failed. -/
@[simp] lemma wp_bind {m : Fallible ε σ α} {f : α → Fallible ε σ β} {ok : β → σ → Prop} :
    wp (m >>= f) ok err s ↔ wp m (fun a t => wp (f a) ok err t) err s := by
  unfold wp
  rw [exec_bind]
  cases m.exec s with
  | mk r t => cases r <;> rfl

/-- A guard fails with its error or lets the rest run. -/
lemma wp_guard {p : Prop} [Decidable p] {e : ε} {f : PUnit → Fallible ε σ α}
    {m : Fallible ε σ α} :
    wp (if p then throw e >>= f else m) ok err s ↔ (p → err e s) ∧ (¬ p → wp m ok err s) := by
  by_cases h : p <;> simp [h]

lemma wp_ite {p : Prop} [Decidable p] {m n : Fallible ε σ α} :
    wp (if p then m else n) ok err s ↔ (p → wp m ok err s) ∧ (¬ p → wp n ok err s) := by
  by_cases h : p <;> simp [h]

@[simp] lemma wp_lift {r : Except ε α} :
    wp (lift r : Fallible ε σ α) ok err s
      ↔ (∀ a, r = .ok a → ok a s) ∧ ∀ e, r = .error e → err e s := by
  cases r <;> simp [wp]

/-- Code that runs on one part of a state. -/
lemma wp_zoom {view : σ → τ} {update : τ → σ → σ} {m : Fallible ε τ α} :
    wp (zoom view update m) ok err s
      ↔ wp m (fun a t => ok a (update t s)) (fun e t => err e (update t s)) (view s) := by
  unfold wp
  rw [exec_zoom]
  cases m.exec (view s) with
  | mk r t => cases r <;> rfl

/-! ## Loops -/

/-- The loop rule: the invariant speaks of the elements done so far. -/
lemma wp_forM {f : α → Fallible ε σ PUnit} (l : List α) (inv : List α → σ → Prop)
    (hstep : ∀ done a t, done ++ [a] <+: l → inv done t →
      wp (f a) (fun _ u => inv (done ++ [a]) u) err t)
    (h : inv [] s) : wp (forM l f) (fun _ t => inv l t) err s := by
  -- the induction is on what is left to do
  suffices hrest : ∀ rest done t, l = done ++ rest → inv done t →
      wp (forM rest f) (fun _ u => inv l u) err t from hrest l [] s rfl h
  intro rest
  induction rest with
  | nil =>
    intro done t hl hinv
    rw [List.append_nil] at hl
    subst hl
    exact hinv
  | cons a rest ih =>
    intro done t hl hinv
    rw [List.forM_cons, wp_bind]
    have hl' : l = (done ++ [a]) ++ rest := by rw [hl, List.append_cons]
    apply wp_weaken (hstep done a t ⟨rest, hl'.symm⟩ hinv)
    intro _ u hu
    exact ih (done ++ [a]) u hl' hu

/-- A loop of pure fallible code succeeds only if every turn does. -/
lemma forM_eq_ok {l : List α} {f : α → Except ε Unit} (h : l.forM f = .ok ()) :
    ∀ a ∈ l, f a = .ok () := by
  induction l with
  | nil =>
    intro a ha
    cases ha
  | cons b l ih =>
    have h' : (f b >>= fun _ => l.forM f) = .ok () := h
    obtain ⟨⟨⟩, hb, hl⟩ := bind_eq_ok.mp h'
    intro a ha
    rcases List.mem_cons.mp ha with rfl | hmem
    · exact hb
    · exact ih hl a hmem

end Fallible
