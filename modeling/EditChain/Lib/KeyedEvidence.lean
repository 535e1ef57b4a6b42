import Mathlib.Algebra.BigOperators.Group.Finset.Basic
import Mathlib.Data.Finset.Card
import Mathlib.Data.Finset.Prod
import Mathlib.Data.Finset.Union
import Mathlib.Algebra.Order.BigOperators.Group.Finset

/-!
# Keyed evidence

A finite set of key/value pairs in which several values may claim the same key. A key is
*accepted* while exactly one value claims it and *conflicted* once two or more do. Evidence only
grows, so a conflict is permanent, while acceptance is not monotone: it is the part of the keys
that the conflicts have left over.
-/

namespace KeyedEvidence

variable {κ ν : Type*} [DecidableEq κ] [DecidableEq ν]

/-- The values that claim the key `k`. -/
def variants (E : Finset (κ × ν)) (k : κ) : Finset ν :=
  (E.filter (·.1 = k)).image Prod.snd

/-- Every key some value claims. -/
def keys (E : Finset (κ × ν)) : Finset κ := E.image Prod.fst

/-- The keys claimed by exactly one value. -/
def accepted (E : Finset (κ × ν)) : Finset κ := (keys E).filter fun k => (variants E k).card = 1

/-- The keys claimed by two or more values. -/
def conflicted (E : Finset (κ × ν)) : Finset κ := (keys E).filter fun k => 1 < (variants E k).card

@[simp] lemma mem_variants {E : Finset (κ × ν)} {k : κ} {v : ν} : v ∈ variants E k ↔ (k, v) ∈ E := by
  simp [variants]

omit [DecidableEq ν] in
@[simp] lemma mem_keys {E : Finset (κ × ν)} {k : κ} : k ∈ keys E ↔ ∃ v, (k, v) ∈ E := by
  simp [keys]

/-- A key with a claim has at least one variant. -/
lemma one_le_card_variants {E : Finset (κ × ν)} {k : κ} (h : k ∈ keys E) :
    1 ≤ (variants E k).card := by
  obtain ⟨v, hv⟩ := mem_keys.1 h
  exact Finset.card_pos.mpr ⟨v, mem_variants.2 hv⟩

lemma mem_accepted {E : Finset (κ × ν)} {k : κ} : k ∈ accepted E ↔ (variants E k).card = 1 := by
  simp only [accepted, Finset.mem_filter, and_iff_right_iff_imp]
  intro h
  obtain ⟨v, hv⟩ := Finset.card_pos.mp (h ▸ Nat.one_pos)
  exact mem_keys.2 ⟨v, mem_variants.1 hv⟩

@[simp] lemma accepted_empty : accepted (∅ : Finset (κ × ν)) = ∅ := rfl

lemma mem_conflicted {E : Finset (κ × ν)} {k : κ} :
    k ∈ conflicted E ↔ 1 < (variants E k).card := by
  simp only [conflicted, Finset.mem_filter, and_iff_right_iff_imp]
  intro h
  obtain ⟨v, hv⟩ := Finset.card_pos.mp (Nat.zero_lt_of_lt h)
  exact mem_keys.2 ⟨v, mem_variants.1 hv⟩

/-- Two different claims are a conflict. -/
lemma mem_conflicted_of_ne {E : Finset (κ × ν)} {k : κ} {v w : ν} (hv : (k, v) ∈ E)
    (hw : (k, w) ∈ E) (hne : v ≠ w) : k ∈ conflicted E :=
  mem_conflicted.2 (Finset.one_lt_card.mpr ⟨v, mem_variants.2 hv, w, mem_variants.2 hw, hne⟩)

lemma disjoint_accepted_conflicted (E : Finset (κ × ν)) :
    Disjoint (accepted E) (conflicted E) := by
  rw [Finset.disjoint_left]
  intro k ha hc
  rw [mem_accepted] at ha
  rw [mem_conflicted] at hc
  omega

/-- Every claimed key is accepted or conflicted. -/
lemma accepted_union_conflicted (E : Finset (κ × ν)) : accepted E ∪ conflicted E = keys E := by
  ext k
  simp only [accepted, conflicted, Finset.mem_union, Finset.mem_filter]
  constructor
  · rintro (h | h) <;> exact h.1
  · intro h
    have := one_le_card_variants h
    rcases Nat.lt_or_ge 1 (variants E k).card with hlt | hge
    · exact Or.inr ⟨h, hlt⟩
    · exact Or.inl ⟨h, by omega⟩

/-- Accepted keys are the claimed keys without a conflict. -/
lemma accepted_eq_sdiff (E : Finset (κ × ν)) : accepted E = keys E \ conflicted E := by
  rw [← accepted_union_conflicted E, Finset.union_sdiff_right,
    Finset.sdiff_eq_self_of_disjoint (disjoint_accepted_conflicted E)]

lemma variants_mono {E F : Finset (κ × ν)} (h : E ⊆ F) (k : κ) : variants E k ⊆ variants F k := by
  intro v hv
  exact mem_variants.2 (h (mem_variants.1 hv))

/-- A conflict never goes away. -/
lemma conflicted_mono {E F : Finset (κ × ν)} (h : E ⊆ F) : conflicted E ⊆ conflicted F := by
  intro k hk
  rw [mem_conflicted] at hk ⊢
  exact lt_of_lt_of_le hk (Finset.card_le_card (variants_mono h k))

lemma variants_insert_self (E : Finset (κ × ν)) (k : κ) (v : ν) :
    variants (insert (k, v) E) k = insert v (variants E k) := by
  ext w
  simp

lemma variants_insert_of_ne (E : Finset (κ × ν)) {k j : κ} (v : ν) (h : j ≠ k) :
    variants (insert (k, v) E) j = variants E j := by
  ext w
  simp [h]

lemma keys_insert (E : Finset (κ × ν)) (k : κ) (v : ν) :
    keys (insert (k, v) E) = insert k (keys E) := by
  simp [keys, Finset.image_insert]

/-- The first claim of a key is accepted. -/
lemma accepted_insert_of_notMem {E : Finset (κ × ν)} {k : κ} (v : ν) (h : k ∉ keys E) :
    accepted (insert (k, v) E) = insert k (accepted E) := by
  ext j
  rw [mem_accepted, Finset.mem_insert, mem_accepted]
  by_cases hj : j = k
  · have hempty : variants E k = ∅ := by
      rw [Finset.eq_empty_iff_forall_notMem]
      intro w hw
      exact h (mem_keys.2 ⟨w, mem_variants.1 hw⟩)
    simp [hj, variants_insert_self, hempty]
  · simp [hj, variants_insert_of_ne E v hj]

/-- A further claim takes the key out of the accepted ones. -/
lemma accepted_insert_of_mem {E : Finset (κ × ν)} {k : κ} {v : ν} (h : k ∈ keys E)
    (hv : (k, v) ∉ E) : accepted (insert (k, v) E) = (accepted E).erase k := by
  ext j
  rw [mem_accepted, Finset.mem_erase, mem_accepted]
  by_cases hj : j = k
  · have hpos := one_le_card_variants h
    rw [hj, variants_insert_self, Finset.card_insert_of_notMem (by simpa using hv)]
    simp only [ne_eq, not_true_eq_false, false_and, iff_false]
    omega
  · simp [hj, variants_insert_of_ne E v hj]

/-- The pairs are counted key by key. -/
lemma card_eq_sum_card_variants (E : Finset (κ × ν)) :
    E.card = ∑ k ∈ keys E, (variants E k).card := by
  rw [Finset.card_eq_sum_card_image Prod.fst E]
  refine Finset.sum_congr rfl fun k _ => ?_
  rw [variants, Finset.card_image_of_injOn]
  intro a ha b hb hab
  have ha' := (Finset.mem_filter.mp ha).2
  have hb' := (Finset.mem_filter.mp hb).2
  exact Prod.ext (ha'.trans hb'.symm) hab

/-- The pairs with a conflicted key are the variants of the conflicted keys. -/
lemma card_filter_conflicted (E : Finset (κ × ν)) :
    (E.filter (·.1 ∈ conflicted E)).card = ∑ k ∈ conflicted E, (variants E k).card := by
  have hkeys : keys (E.filter (·.1 ∈ conflicted E)) = conflicted E := by
    ext k
    simp only [mem_keys, Finset.mem_filter, exists_and_right, and_iff_right_iff_imp]
    intro hk
    exact mem_keys.1 (Finset.mem_filter.mp hk).1
  rw [card_eq_sum_card_variants, hkeys]
  refine Finset.sum_congr rfl fun k hk => ?_
  congr 1
  ext v
  simp [hk]

/-- The pairs are the accepted keys, one each, and the variants of the conflicted keys. -/
lemma card_eq_card_accepted_add (E : Finset (κ × ν)) :
    E.card = (accepted E).card + ∑ k ∈ conflicted E, (variants E k).card := by
  rw [card_eq_sum_card_variants, ← accepted_union_conflicted E,
    Finset.sum_union (disjoint_accepted_conflicted E)]
  congr 1
  rw [Finset.card_eq_sum_ones]
  exact Finset.sum_congr rfl fun k hk => mem_accepted.1 hk

end KeyedEvidence
