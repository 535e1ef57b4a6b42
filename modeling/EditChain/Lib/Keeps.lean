import EditChain.Lib.Outcome

/-!
# Code that leaves a part of the state alone

`Keeps view m` says that a run of `m` changes nothing that `view` sees, whatever its outcome. The
rules follow the shape of a `do` block.
-/

namespace Fallible

variable {ε σ τ α β : Type} {view : σ → τ}

/-- Whatever a run does, the view of the state stays. -/
def Keeps (view : σ → τ) (m : Fallible ε σ α) : Prop :=
  ∀ s, wp m (fun _ t => view t = view s) (fun _ t => view t = view s) s

lemma Keeps.wp {m : Fallible ε σ α} (h : Keeps view m) {s : σ} {v : τ} (hs : view s = v) :
    wp m (fun _ t => view t = v) (fun _ t => view t = v) s := by
  subst hs
  exact h s

/-- What holds after a run, whatever its outcome. -/
lemma exec_of_wp {m : Fallible ε σ α} {Q : σ → Prop} {s : σ}
    (h : Fallible.wp m (fun _ t => Q t) (fun _ t => Q t) s) : Q (m.exec s).2 := by
  unfold Fallible.wp at h
  cases hm : m.exec s with
  | mk r t =>
    rw [hm] at h
    cases r with
    | ok a => exact h
    | error e => exact h

lemma keeps_pure (a : α) : Keeps view (pure a : Fallible ε σ α) := fun _ => rfl

lemma keeps_throw (e : ε) : Keeps view (throw e : Fallible ε σ α) := fun _ => rfl

lemma keeps_get : Keeps view (get : Fallible ε σ σ) := fun _ => rfl

lemma keeps_lift (r : Except ε α) : Keeps view (lift r : Fallible ε σ α) := by
  intro s
  rw [wp_lift]
  exact ⟨fun _ _ => rfl, fun _ _ => rfl⟩

lemma keeps_modify {f : σ → σ} (h : ∀ s, view (f s) = view s) :
    Keeps view (modify f : Fallible ε σ PUnit) := fun s => h s

lemma Keeps.bind {m : Fallible ε σ α} {f : α → Fallible ε σ β} (hm : Keeps view m)
    (hf : ∀ a, Keeps view (f a)) : Keeps view (m >>= f) := by
  intro s
  rw [wp_bind]
  apply wp_mono (hm s)
  · intro a t ht
    exact (hf a).wp ht
  · intro e t ht
    exact ht

lemma Keeps.ite {p : Prop} [Decidable p] {m n : Fallible ε σ α} (hm : p → Keeps view m)
    (hn : ¬ p → Keeps view n) : Keeps view (if p then m else n) := by
  by_cases h : p
  · rw [if_pos h]
    exact hm h
  · rw [if_neg h]
    exact hn h

/-- A guard does nothing by itself. -/
lemma Keeps.guard {p : Prop} [Decidable p] {e : ε} {f : PUnit → Fallible ε σ α}
    {m : Fallible ε σ α} (h : Keeps view m) : Keeps view (if p then throw e >>= f else m) :=
  Keeps.ite (fun _ _ => rfl) fun _ => h

/-- A loop keeps what every turn keeps. -/
lemma keeps_forM {f : α → Fallible ε σ PUnit} (h : ∀ a, Keeps view (f a)) (l : List α) :
    Keeps view (forM l f) := by
  induction l with
  | nil => exact fun _ => rfl
  | cons a l ih =>
    rw [List.forM_cons]
    exact (h a).bind fun _ => ih

end Fallible
