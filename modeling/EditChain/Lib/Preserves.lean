import EditChain.Lib.Outcome

/-!
# Code that preserves an invariant

`Preserves inv m` says that a run of `m` from a state in `inv` ends in one, whatever its outcome.
The rules follow the shape of a `do` block.
-/

namespace Fallible

variable {ε σ τ α β : Type} {inv : σ → Prop}

/-- Whatever a run does, the invariant holds after it. -/
def Preserves (inv : σ → Prop) (m : Fallible ε σ α) : Prop :=
  ∀ s, inv s → wp m (fun _ t => inv t) (fun _ t => inv t) s

lemma preserves_pure (a : α) : Preserves inv (pure a : Fallible ε σ α) := fun _ h => h

lemma preserves_throw (e : ε) : Preserves inv (throw e : Fallible ε σ α) := fun _ h => h

lemma preserves_lift (r : Except ε α) : Preserves inv (lift r : Fallible ε σ α) := by
  intro s h
  rw [wp_lift]
  exact ⟨fun _ _ => h, fun _ _ => h⟩

lemma preserves_modify {f : σ → σ} (h : ∀ s, inv s → inv (f s)) :
    Preserves inv (modify f : Fallible ε σ PUnit) := h

lemma Preserves.bind {m : Fallible ε σ α} {f : α → Fallible ε σ β} (hm : Preserves inv m)
    (hf : ∀ a, Preserves inv (f a)) : Preserves inv (m >>= f) := by
  intro s h
  rw [wp_bind]
  apply wp_weaken (hm s h)
  intro a t ht
  exact hf a t ht

/-- Code that starts from a look at the state. -/
lemma preserves_get_bind {f : σ → Fallible ε σ β} (h : ∀ s, Preserves inv (f s)) :
    Preserves inv (get >>= f) := fun s hs => h s s hs

lemma Preserves.ite {p : Prop} [Decidable p] {m n : Fallible ε σ α} (hm : p → Preserves inv m)
    (hn : ¬ p → Preserves inv n) : Preserves inv (if p then m else n) := by
  by_cases h : p
  · rw [if_pos h]
    exact hm h
  · rw [if_neg h]
    exact hn h

/-- A guard does nothing by itself. -/
lemma Preserves.guard {p : Prop} [Decidable p] {e : ε} {f : PUnit → Fallible ε σ α}
    {m : Fallible ε σ α} (h : ¬ p → Preserves inv m) :
    Preserves inv (if p then throw e >>= f else m) :=
  Preserves.ite (fun _ _ hs => hs) h

/-- A loop preserves what every turn preserves. -/
lemma preserves_forM {f : α → Fallible ε σ PUnit} (h : ∀ a, Preserves inv (f a)) (l : List α) :
    Preserves inv (forM l f) := by
  induction l with
  | nil => exact fun _ hs => hs
  | cons a l ih =>
    rw [List.forM_cons]
    exact (h a).bind fun _ => ih

/-- Code that runs on one part of a state. -/
lemma Preserves.zoom {view : σ → τ} {update : τ → σ → σ} {part : τ → Prop} {m : Fallible ε τ α}
    (hm : Preserves part m) (hview : ∀ s, inv s → part (view s))
    (hupdate : ∀ s t, inv s → part t → inv (update t s)) :
    Preserves inv (Fallible.zoom view update m) := by
  intro s h
  rw [wp_zoom]
  apply wp_mono (hm (view s) (hview s h))
  · intro _ t ht
    exact hupdate s t h ht
  · intro _ t ht
    exact hupdate s t h ht

end Fallible
