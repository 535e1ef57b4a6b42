import EditChain.Index.State
import EditChain.Store.TailTheorems

/-!
# Content dependencies

Each operation of the content index owns its references. Adding and removing an owner changes
nothing for the other owners, and a refresh reports exactly the owners of the references whose
availability it changed.
-/

namespace EditChain.Index

open Core Fallible Store
open Std (ExtTreeMap ExtTreeSet TransOrd LawfulEqOrd)

namespace ContentIndex

variable {Ref : Type} [Ord Ref] [TransOrd Ref] [LawfulEqOrd Ref] [DecidableEq Ref]
  {index index' : ContentIndex Ref}

/-- The operation owns the reference. -/
def Owns (index : ContentIndex Ref) (reference : Ref) (owner : OpId) : Prop :=
  ∃ entry, index.entries[reference]? = some entry ∧ owner ∈ entry.owners

/-- Every reference has an owner. -/
def Owned (index : ContentIndex Ref) : Prop :=
  ∀ (reference : Ref) entry, index.entries[reference]? = some entry → ∃ owner, owner ∈ entry.owners

omit [LawfulEqOrd Ref] [DecidableEq Ref] in
lemma owned_empty : Owned ({} : ContentIndex Ref) := by
  intro reference entry h
  simp at h

omit [LawfulEqOrd Ref] [DecidableEq Ref] in
lemma not_owns_empty (reference : Ref) (owner : OpId) :
    ¬ Owns ({} : ContentIndex Ref) reference owner := by
  rintro ⟨entry, h, -⟩
  simp at h

omit [LawfulEqOrd Ref] [DecidableEq Ref] in
lemma Owns.status_isSome {reference : Ref} {owner : OpId} (h : index.Owns reference owner) :
    (index.status reference).isSome := by
  obtain ⟨entry, hentry, -⟩ := h
  unfold status
  rw [hentry]
  rfl

/-! ## Removing an owner -/

/-- The entries after an owner is removed. -/
lemma getElem?_remove (index : ContentIndex Ref) (reference other : Ref) (owner : OpId) :
    (index.remove reference owner).entries[other]?
      = if reference = other then
          index.entries[other]?.bind fun entry =>
            if (entry.owners.erase owner).isEmpty then none
            else some { entry with owners := entry.owners.erase owner }
        else index.entries[other]? := by
  unfold remove
  by_cases hsame : reference = other
  · subst hsame
    rw [if_pos rfl]
    cases hentry : index.entries[reference]? with
    | none => simp [hentry]
    | some entry =>
      dsimp only
      by_cases hempty : (entry.owners.erase owner).isEmpty = true
      · rw [if_pos hempty, Option.bind_some, if_pos hempty]
        rw [ExtTreeMap.getElem?_erase, if_pos (by simp)]
      · rw [if_neg hempty, Option.bind_some, if_neg hempty]
        rw [ExtTreeMap.getElem?_insert, if_pos (by simp)]
  · rw [if_neg hsame]
    cases hentry : index.entries[reference]? with
    | none => rfl
    | some entry =>
      dsimp only
      by_cases hempty : (entry.owners.erase owner).isEmpty = true
      · rw [if_pos hempty]
        rw [ExtTreeMap.getElem?_erase, if_neg (by simpa using hsame)]
      · rw [if_neg hempty]
        rw [ExtTreeMap.getElem?_insert, if_neg (by simpa using hsame)]

lemma owns_remove (reference other : Ref) (owner id : OpId) :
    (index.remove reference owner).Owns other id
      ↔ index.Owns other id ∧ ¬ (reference = other ∧ owner = id) := by
  unfold Owns
  rw [getElem?_remove]
  by_cases hsame : reference = other
  · subst hsame
    rw [if_pos rfl]
    cases hentry : index.entries[reference]? with
    | none => simp
    | some entry =>
      simp only [Option.bind_some, Option.some.injEq, exists_eq_left', true_and]
      have hmem : ∀ id, id ∈ entry.owners.erase owner ↔ owner ≠ id ∧ id ∈ entry.owners := by
        intro id
        rw [ExtTreeSet.mem_erase]
        simp
      split
      · next hempty =>
        have hnone : ∀ id, id ∉ entry.owners.erase owner := by
          intro id hid
          rw [ExtTreeSet.isEmpty_iff] at hempty
          rw [hempty] at hid
          exact ExtTreeSet.not_mem_empty hid
        simp only [reduceCtorEq, false_and, exists_false, false_iff]
        intro hid
        exact hnone id ((hmem id).mpr ⟨hid.2, hid.1⟩)
      · simp only [Option.some.injEq, exists_eq_left', hmem]
        exact and_comm
  · rw [if_neg hsame]
    simp [hsame]

/-- What is left keeps its availability. -/
lemma status_remove {reference other : Ref} {owner id : OpId}
    (h : (index.remove reference owner).Owns other id) :
    (index.remove reference owner).status other = index.status other := by
  obtain ⟨entry, hentry, -⟩ := h
  unfold status
  rw [getElem?_remove] at hentry ⊢
  by_cases hsame : reference = other
  · rw [if_pos hsame] at hentry ⊢
    obtain ⟨old, hold, hif⟩ := Option.bind_eq_some_iff.mp hentry
    rw [hold, Option.bind_some]
    split at hif
    · cases hif
    · next hrest =>
      rw [if_neg hrest]
      rfl
  · rw [if_neg hsame]

lemma Owned.remove (h : index.Owned) (reference : Ref) (owner : OpId) :
    (index.remove reference owner).Owned := by
  intro other entry hentry
  rw [getElem?_remove] at hentry
  split at hentry
  · obtain ⟨old, hold, hif⟩ := Option.bind_eq_some_iff.mp hentry
    split at hif
    · cases hif
    · next hrest =>
      cases hif
      by_contra hnone
      apply hrest
      rw [ExtTreeSet.isEmpty_iff]
      apply ExtTreeSet.ext_mem
      intro id
      constructor
      · intro hid
        exact absurd ⟨id, hid⟩ hnone
      · intro hid
        exact absurd hid ExtTreeSet.not_mem_empty
  · exact h other entry hentry

/-! ## Adding an owner -/

variable {σ : Type} {source : Ref → Fallible IoError σ ContentState} {s s' : σ}

omit [DecidableEq Ref] in
/-- The entries after one more owner: what is indexed keeps its availability. -/
lemma entries_add {reference : Ref} {owner : OpId} {reads reads' : ℕ}
    (h : (index.add source reference owner reads).exec s = (.ok (index', reads'), s')) :
    (∀ other, reference ≠ other → index'.entries[other]? = index.entries[other]?)
      ∧ ∃ entry, index'.entries[reference]? = some entry
        ∧ (∀ id, id ∈ entry.owners ↔ index.Owns reference id ∨ owner = id)
        ∧ ∀ state, index.status reference = some state → entry.state = state := by
  unfold add at h
  obtain ⟨⟨found, reads₁⟩, s₁, hdiscover, h⟩ := exec_bind_eq_ok.mp h
  cases h
  have hothers : ∀ other : Ref, reference ≠ other → (found.entries.modify reference fun entry =>
      { entry with owners := entry.owners.insert owner })[other]? = found.entries[other]? := by
    intro other hne
    rw [ExtTreeMap.getElem?_modify, if_neg (by simpa using hne)]
  have howner : ∀ entry : Dependency, found.entries[reference]? = some entry →
      (found.entries.modify reference fun entry =>
        { entry with owners := entry.owners.insert owner })[reference]?
        = some { entry with owners := entry.owners.insert owner } := by
    intro entry hentry
    rw [ExtTreeMap.getElem?_modify, if_pos (by simp), hentry]
    rfl
  have hmem : ∀ (owners : ExtTreeSet OpId) id,
      id ∈ owners.insert owner ↔ id ∈ owners ∨ owner = id := by
    intro owners id
    rw [ExtTreeSet.mem_insert, Std.compare_eq_iff_eq, or_comm]
  unfold discover at hdiscover
  split at hdiscover
  · next hknown =>
    cases hdiscover
    obtain ⟨entry, hentry⟩ := Option.isSome_iff_exists.mp
      (ExtTreeMap.mem_iff_isSome_getElem?.mp hknown)
    refine ⟨hothers, _, howner entry hentry, fun id => ?_, fun state hstate => ?_⟩
    · rw [hmem]
      unfold Owns
      simp [hentry]
    · unfold status at hstate
      rw [hentry] at hstate
      exact Option.some.inj hstate
  · next hnew =>
    obtain ⟨state, s₂, -, hdiscover⟩ := exec_bind_eq_ok.mp hdiscover
    cases hdiscover
    have hnone : index.entries[reference]? = none := by
      rw [ExtTreeMap.mem_iff_isSome_getElem?, Option.not_isSome_iff_eq_none] at hnew
      exact hnew
    refine ⟨fun other hne => ?_, _, howner { state := state } ?_, fun id => ?_,
      fun found hfound => ?_⟩
    · rw [hothers other hne, ExtTreeMap.getElem?_insert, if_neg (by simpa using hne)]
    · rw [ExtTreeMap.getElem?_insert, if_pos (by simp)]
    · rw [hmem]
      unfold Owns
      simp [hnone]
    · unfold status at hfound
      rw [hnone] at hfound
      cases hfound

lemma owns_add {reference other : Ref} {owner id : OpId} {reads reads' : ℕ}
    (h : (index.add source reference owner reads).exec s = (.ok (index', reads'), s')) :
    index'.Owns other id ↔ index.Owns other id ∨ (reference = other ∧ owner = id) := by
  obtain ⟨hothers, entry, hentry, howners, -⟩ := entries_add h
  by_cases hsame : reference = other
  · subst hsame
    rw [show index'.Owns reference id ↔ id ∈ entry.owners by simp [Owns, hentry], howners]
    simp
  · unfold Owns
    rw [hothers other hsame]
    simp [hsame]

lemma status_add {reference other : Ref} {owner : OpId} {reads reads' : ℕ}
    (h : (index.add source reference owner reads).exec s = (.ok (index', reads'), s'))
    (hsome : (index.status other).isSome) : index'.status other = index.status other := by
  obtain ⟨hothers, entry, hentry, -, hstate⟩ := entries_add h
  by_cases hsame : reference = other
  · subst hsame
    obtain ⟨state, hstatus⟩ := Option.isSome_iff_exists.mp hsome
    rw [hstatus, ← hstate state hstatus]
    unfold status
    rw [hentry]
    rfl
  · unfold status
    rw [hothers other hsame]

lemma Owned.add {reference : Ref} {owner : OpId} {reads reads' : ℕ} (howned : index.Owned)
    (h : (index.add source reference owner reads).exec s = (.ok (index', reads'), s')) :
    index'.Owned := by
  obtain ⟨hothers, entry, hentry, howners, -⟩ := entries_add h
  intro other found hfound
  by_cases hsame : reference = other
  · subst hsame
    rw [hentry] at hfound
    cases hfound
    exact ⟨owner, (howners owner).mpr (.inr rfl)⟩
  · rw [hothers other hsame] at hfound
    exact howned other found hfound

/-! ## Refreshing -/

/-- One reference is resolved again. -/
lemma resolve_spec (index : ContentIndex Ref) (reference : Ref) (state : ContentState)
    (changed : ExtTreeSet OpId) :
    (∀ other id, (index.resolve reference state changed).1.Owns other id ↔ index.Owns other id)
      ∧ (∀ other, reference ≠ other →
        (index.resolve reference state changed).1.status other = index.status other)
      ∧ (∀ id, id ∈ (index.resolve reference state changed).2 ↔ id ∈ changed
        ∨ (index.resolve reference state changed).1.status reference ≠ index.status reference
          ∧ index.Owns reference id)
      ∧ (index.Owned → (index.resolve reference state changed).1.Owned) := by
  unfold resolve
  cases hentry : index.entries[reference]? with
  | none => exact ⟨fun _ _ => Iff.rfl, fun _ _ => rfl, fun id => by simp [status], id⟩
  | some entry =>
    dsimp only
    by_cases hsame : entry.state = state
    · rw [if_neg (not_not.mpr hsame)]
      exact ⟨fun _ _ => Iff.rfl, fun _ _ => rfl, fun id => by simp [status], id⟩
    · rw [if_pos hsame]
      have hlookup : ∀ other : Ref,
          (index.entries.insert reference { entry with state := state })[other]?
          = if reference = other then some { entry with state := state }
            else index.entries[other]? := by
        intro other
        rw [ExtTreeMap.getElem?_insert]
        simp
      refine ⟨fun other id => ?_, fun other hne => ?_, fun id => ?_,
        fun howned other found hfound => ?_⟩
      · unfold Owns
        rw [hlookup]
        by_cases heq : reference = other
        · subst heq
          simp [hentry]
        · simp [heq]
      · unfold status
        rw [hlookup, if_neg hne]
      · rw [ChainDelta.mem_foldl_insert, ExtTreeSet.mem_toList]
        unfold status Owns
        rw [hlookup, if_pos rfl, hentry]
        simp only [Option.map_some, ne_eq, Option.some.injEq, exists_eq_left']
        have hne : ¬ state = entry.state := fun heq => hsame heq.symm
        simp only [hne, not_false_eq_true, true_and]
        exact or_comm
      · rw [hlookup] at hfound
        by_cases heq : reference = other
        · rw [if_pos heq] at hfound
          cases hfound
          exact howned reference entry hentry
        · rw [if_neg heq] at hfound
          exact howned other found hfound

lemma refreshLoop_spec {references : List Ref} {changed changed' : ExtTreeSet OpId}
    {reads reads' : ℕ} (hnodup : references.Nodup)
    (h : (refreshLoop source references index changed reads).exec s
      = (.ok (index', changed', reads'), s')) :
    (∀ other id, index'.Owns other id ↔ index.Owns other id)
      ∧ (∀ other, other ∉ references → index'.status other = index.status other)
      ∧ (∀ id, id ∈ changed' ↔ id ∈ changed
        ∨ ∃ reference, index'.status reference ≠ index.status reference
          ∧ index.Owns reference id)
      ∧ (index.Owned → index'.Owned) := by
  induction references generalizing index changed reads s with
  | nil =>
    cases h
    exact ⟨fun _ _ => Iff.rfl, fun _ _ => rfl, fun id => by simp, id⟩
  | cons reference references ih =>
    rw [refreshLoop] at h
    obtain ⟨state, s₁, -, h⟩ := exec_bind_eq_ok.mp h
    obtain ⟨hnew, hnodup⟩ := List.nodup_cons.mp hnodup
    change (refreshLoop source references (index.resolve reference state changed).1
      (index.resolve reference state changed).2 (reads + 1)).exec s₁ = _ at h
    obtain ⟨howns, hstatus, hchanged, howned⟩ := resolve_spec index reference state changed
    obtain ⟨howns', hstatus', hchanged', howned'⟩ := ih hnodup h
    generalize (index.resolve reference state changed).1 = middle at *
    have hfinal : index'.status reference = middle.status reference := hstatus' reference hnew
    refine ⟨fun other id => (howns' other id).trans (howns other id), fun other hother => ?_,
      fun id => ?_, fun hall => howned' (howned hall)⟩
    · rw [List.mem_cons, not_or] at hother
      rw [hstatus' other hother.2, hstatus other (Ne.symm hother.1)]
    · rw [hchanged', hchanged, or_assoc]
      apply or_congr_right
      constructor
      · intro hcase
        rcases hcase with ⟨hne, hown⟩ | ⟨other, hne, hown⟩
        · rw [← hfinal] at hne
          exact ⟨reference, hne, hown⟩
        · -- the reference that was just resolved is not met again
          have hother : reference ≠ other := by
            intro heq
            rw [← heq] at hne
            exact hne hfinal
          rw [hstatus other hother] at hne
          exact ⟨other, hne, (howns other id).mp hown⟩
      · intro hcase
        obtain ⟨other, hne, hown⟩ := hcase
        by_cases hsame : reference = other
        · subst hsame
          rw [hfinal] at hne
          exact .inl ⟨hne, hown⟩
        · rw [← hstatus other hsame] at hne
          exact .inr ⟨other, hne, (howns other id).mpr hown⟩

/-- A refresh reports the owners of the references whose availability it changed. -/
lemma refresh_spec {changed : ExtTreeSet OpId} {reads reads' : ℕ}
    (h : (index.refresh source reads).exec s = (.ok (index', changed, reads'), s')) :
    (∀ other id, index'.Owns other id ↔ index.Owns other id)
      ∧ (∀ id, id ∈ changed ↔ ∃ reference, index'.status reference ≠ index.status reference
        ∧ index.Owns reference id)
      ∧ (index.Owned → index'.Owned) := by
  have hnodup : index.pending.toList.Nodup := by
    apply ExtTreeSet.distinct_toList.imp
    intro a b hne heq
    exact hne (Std.compare_eq_iff_eq.mpr heq)
  obtain ⟨howns, -, hchanged, howned⟩ := refreshLoop_spec hnodup h
  refine ⟨howns, fun id => ?_, howned⟩
  rw [hchanged]
  simp

end ContentIndex
end EditChain.Index
