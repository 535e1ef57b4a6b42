import Mathlib.Data.List.Induction
import Mathlib.Data.List.Nodup

/-!
# Ledgers of first occurrences

Records arrive with a key and a value. A *ledger* keeps, in order of arrival, the first record of
every distinct pair of key and value: the order in which the variants of each key were first seen,
and nothing else. Indexes over the same arrivals are compared by showing each to be a view of it.
-/

namespace Ledger

variable {ρ κ ν : Type} [DecidableEq κ] [DecidableEq ν] (key : ρ → κ) (value : ρ → ν)

/-- The records of one key. -/
def variants (l : List ρ) (k : κ) : List ρ := l.filter (key · = k)

/-- A record with the same key and value is already there. -/
def Known (l : List ρ) (r : ρ) : Prop := ∃ a ∈ l, key a = key r ∧ value a = value r

instance (l : List ρ) (r : ρ) : Decidable (Known key value l r) :=
  inferInstanceAs (Decidable (∃ a ∈ l, _))

/-- Keep a record unless it is known. -/
def retain (l : List ρ) (r : ρ) : List ρ := if Known key value l r then l else l ++ [r]

/-- The first occurrences among the arrivals. -/
def ledger (arrivals : List ρ) : List ρ := arrivals.foldl (retain key value) []

variable {key value}

omit [DecidableEq ν] in
@[simp] lemma variants_nil (k : κ) : variants key ([] : List ρ) k = [] := rfl

omit [DecidableEq ν] in
lemma mem_variants {l : List ρ} {k : κ} {r : ρ} : r ∈ variants key l k ↔ r ∈ l ∧ key r = k := by
  simp [variants]

omit [DecidableEq ν] in
lemma variants_append_self (l : List ρ) (r : ρ) :
    variants key (l ++ [r]) (key r) = variants key l (key r) ++ [r] := by
  simp [variants, List.filter_append]

omit [DecidableEq ν] in
lemma variants_append_of_ne (l : List ρ) {r : ρ} {k : κ} (h : key r ≠ k) :
    variants key (l ++ [r]) k = variants key l k := by
  simp [variants, List.filter_append, h]

lemma retain_of_known {l : List ρ} {r : ρ} (h : Known key value l r) :
    retain key value l r = l := if_pos h

lemma retain_of_not_known {l : List ρ} {r : ρ} (h : ¬ Known key value l r) :
    retain key value l r = l ++ [r] := if_neg h

lemma ledger_append_singleton (arrivals : List ρ) (r : ρ) :
    ledger key value (arrivals ++ [r]) = retain key value (ledger key value arrivals) r := by
  simp [ledger, List.foldl_append]

/-- The ledger holds arrivals, and every arrival is known to it. -/
lemma ledger_spec (arrivals : List ρ) :
    (∀ r ∈ ledger key value arrivals, r ∈ arrivals)
      ∧ ∀ r ∈ arrivals, Known key value (ledger key value arrivals) r := by
  induction arrivals using List.reverseRecOn with
  | nil => simp [ledger]
  | append_singleton arrivals r ih =>
    rw [ledger_append_singleton]
    by_cases hknown : Known key value (ledger key value arrivals) r
    · rw [retain_of_known hknown]
      refine ⟨fun a ha => List.mem_append_left _ (ih.1 a ha), ?_⟩
      intro a ha
      rcases List.mem_append.mp ha with ha | ha
      · exact ih.2 a ha
      · rw [List.mem_singleton.mp ha]
        exact hknown
    · rw [retain_of_not_known hknown]
      refine ⟨?_, ?_⟩
      · intro a ha
        rcases List.mem_append.mp ha with ha | ha
        · exact List.mem_append_left _ (ih.1 a ha)
        · exact List.mem_append_right _ ha
      · intro a ha
        rcases List.mem_append.mp ha with ha | ha
        · obtain ⟨b, hb, heq⟩ := ih.2 a ha
          exact ⟨b, List.mem_append_left _ hb, heq⟩
        · exact ⟨a, List.mem_append_right _ ha, rfl, rfl⟩

/-- No pair of key and value is kept twice. -/
lemma nodup_ledger (arrivals : List ρ) :
    ((ledger key value arrivals).map fun r => (key r, value r)).Nodup := by
  induction arrivals using List.reverseRecOn with
  | nil => simp [ledger]
  | append_singleton arrivals r ih =>
    rw [ledger_append_singleton]
    by_cases hknown : Known key value (ledger key value arrivals) r
    · rw [retain_of_known hknown]
      exact ih
    · rw [retain_of_not_known hknown, List.map_append]
      refine List.nodup_append.mpr ⟨ih, by simp, ?_⟩
      intro p hp q hq heq
      obtain ⟨a, ha, rfl⟩ := List.mem_map.mp hp
      rw [List.map_singleton, List.mem_singleton] at hq
      rw [hq, Prod.mk.injEq] at heq
      exact hknown ⟨a, ha, heq⟩

/-- The first variant of a key is its first arrival. -/
lemma head?_variants_ledger (arrivals : List ρ) (k : κ) :
    (variants key (ledger key value arrivals) k).head? = arrivals.find? (key · = k) := by
  induction arrivals using List.reverseRecOn with
  | nil => rfl
  | append_singleton arrivals r ih =>
    rw [ledger_append_singleton, List.find?_append, ← ih]
    by_cases hknown : Known key value (ledger key value arrivals) r
    · rw [retain_of_known hknown]
      by_cases hkey : key r = k
      · obtain ⟨a, ha, hak, -⟩ := hknown
        have hmem : a ∈ variants key (ledger key value arrivals) k :=
          mem_variants.mpr ⟨ha, hak.trans hkey⟩
        obtain ⟨b, rest, hvariants⟩ := List.exists_cons_of_ne_nil (List.ne_nil_of_mem hmem)
        simp [hvariants]
      · simp [hkey]
    · rw [retain_of_not_known hknown]
      by_cases hkey : key r = k
      · rw [← hkey, variants_append_self]
        cases variants key (ledger key value arrivals) (key r) <;> simp
      · rw [variants_append_of_ne _ hkey]
        simp [hkey]

end Ledger
