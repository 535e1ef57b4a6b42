import Mathlib.Data.Set.Insert
import Mathlib.Logic.Relation

/-!
# Exploring a graph

A search keeps the nodes it has visited and those it has found but not visited yet. Visiting a node
adds its successors to what was found. However the search chooses, and wherever it is stopped, what
it found is reachable, and it has visited everything reachable exactly if nothing is left to visit.
-/

variable {α : Type}

/-- A search from `root` along `next` that has visited the nodes `visited` and has still to visit
the nodes `pending`. -/
structure Exploration (next : α → α → Prop) (root : α) (pending visited : Set α) : Prop where
  disjoint : ∀ a ∈ pending, a ∉ visited
  reachable : ∀ a, a ∈ pending ∨ a ∈ visited → Relation.ReflTransGen next root a
  started : root ∈ pending ∨ root ∈ visited
  closed : ∀ a ∈ visited, ∀ b, next a b → b ∈ visited ∨ b ∈ pending

namespace Exploration

variable {next : α → α → Prop} {root : α} {pending visited : Set α}

lemma start (next : α → α → Prop) (root : α) : Exploration next root {root} ∅ where
  disjoint _ _ := Set.notMem_empty _
  reachable := by
    intro a ha
    rw [Set.mem_singleton_iff, or_iff_left (Set.notMem_empty a)] at ha
    rw [ha]
  started := .inl rfl
  closed _ h := absurd h (Set.notMem_empty _)

/-- One node is visited. -/
lemma visit (h : Exploration next root pending visited) {a : α} (ha : a ∈ pending)
    {pending' visited' : Set α}
    (hpending : ∀ b, b ∈ pending' ↔ (b ∈ pending ∨ next a b ∧ b ∉ visited) ∧ b ≠ a)
    (hvisited : ∀ b, b ∈ visited' ↔ b = a ∨ b ∈ visited) :
    Exploration next root pending' visited' where
  disjoint b hb hmem := by
    obtain ⟨hfound, hne⟩ := (hpending b).mp hb
    rcases (hvisited b).mp hmem with heq | hold
    · exact hne heq
    · rcases hfound with hpend | ⟨-, hnew⟩
      · exact h.disjoint b hpend hold
      · exact hnew hold
  reachable b hb := by
    have hreach := h.reachable a (.inl ha)
    rcases hb with hpend | hmem
    · rcases ((hpending b).mp hpend).1 with hold | ⟨hnext, -⟩
      · exact h.reachable b (.inl hold)
      · exact hreach.tail hnext
    · rcases (hvisited b).mp hmem with rfl | hold
      · exact hreach
      · exact h.reachable b (.inr hold)
  started := by
    by_cases heq : root = a
    · exact .inr ((hvisited root).mpr (.inl heq))
    · -- the root stays where it is
      rcases h.started with hpend | hmem
      · exact .inl ((hpending root).mpr ⟨.inl hpend, heq⟩)
      · exact .inr ((hvisited root).mpr (.inr hmem))
  closed b hb c hnext := by
    by_cases heq : c = a
    · exact .inl ((hvisited c).mpr (.inl heq))
    · rcases (hvisited b).mp hb with rfl | hold
      -- a successor of the visited node is found now, unless it was visited before
      · by_cases hmem : c ∈ visited
        · exact .inl ((hvisited c).mpr (.inr hmem))
        · exact .inr ((hpending c).mpr ⟨.inr ⟨hnext, hmem⟩, heq⟩)
      · rcases h.closed b hold c hnext with hmem | hpend
        · exact .inl ((hvisited c).mpr (.inr hmem))
        · exact .inr ((hpending c).mpr ⟨.inl hpend, heq⟩)

/-- A search that has nothing left to visit has visited what can be reached. -/
lemma mem_visited_of_reachable (h : Exploration next root pending visited) (hnone : pending = ∅)
    {a : α} (ha : Relation.ReflTransGen next root a) : a ∈ visited := by
  induction ha with
  | refl =>
    rcases h.started with hpend | hmem
    · rw [hnone] at hpend
      exact absurd hpend (Set.notMem_empty _)
    · exact hmem
  | tail _ hnext ih =>
    rcases h.closed _ ih _ hnext with hmem | hpend
    · exact hmem
    · rw [hnone] at hpend
      exact absurd hpend (Set.notMem_empty _)

/-- A search is complete exactly if nothing is left to visit. -/
theorem complete_iff (h : Exploration next root pending visited) :
    pending = ∅ ↔ ∀ a, a ∈ visited ↔ Relation.ReflTransGen next root a := by
  constructor
  · intro hnone a
    exact ⟨fun hmem => h.reachable a (.inr hmem), fun ha => h.mem_visited_of_reachable hnone ha⟩
  · intro hall
    apply Set.eq_empty_of_forall_notMem
    intro a ha
    exact h.disjoint a ha ((hall a).mpr (h.reachable a (.inl ha)))

end Exploration
