import EditChain.Index.ContentTheorems

/-!
# Availability

While content only becomes available and stays so, what the index has not found available is what it
asks for again. After a refresh the availability that is indexed is the present one.
-/

namespace EditChain.Index

open Core Fallible Store
open Std (ExtTreeMap ExtTreeSet TransOrd LawfulEqOrd)

/-- What reading content gives, during one call. -/
abbrev Answers (Ref : Type) := Ref → Except IoError ContentState

/-- Content that answers the same throughout a call. -/
def answering {Ref : Type} : Ref → Fallible IoError (Answers Ref) ContentState := fun reference =>
  of fun answers => (answers reference, answers)

/-- What is answered is true. -/
def Honest {Ref : Type} (truth : Ref → ContentState) (answers : Answers Ref) : Prop :=
  ∀ reference state, answers reference = .ok state → state = truth reference

/-- Answers that tell the truth about everything. -/
lemma Honest.of_eq {Ref : Type} {truth : Ref → ContentState} {answers : Answers Ref}
    (h : ∀ reference, answers reference = .ok (truth reference)) : Honest truth answers := by
  intro reference state hstate
  rw [h] at hstate
  cases hstate
  rfl

namespace ContentIndex

variable {Ref : Type} [Ord Ref] [TransOrd Ref] [LawfulEqOrd Ref] [DecidableEq Ref]
  {index index' : ContentIndex Ref} {truth : Ref → ContentState} {answers answers' : Answers Ref}

/-- What is pending is what was not available, and what was available still is. -/
structure Lasts (truth : Ref → ContentState) (index : ContentIndex Ref) : Prop where
  pending : ∀ reference, reference ∈ index.pending
    ↔ ∃ state, index.status reference = some state ∧ state ≠ .available
  available : ∀ reference, index.status reference = some .available → truth reference = .available

/-- The availability that is indexed is the present one. -/
def Current (truth : Ref → ContentState) (index : ContentIndex Ref) : Prop :=
  ∀ reference state, index.status reference = some state → state = truth reference

omit [LawfulEqOrd Ref] [DecidableEq Ref] in
lemma lasts_empty : Lasts truth ({} : ContentIndex Ref) := by
  refine ⟨fun reference => ?_, fun reference h => ?_⟩
  · simp [status]
  · simp [status] at h

omit [LawfulEqOrd Ref] [DecidableEq Ref] in
lemma current_empty : Current truth ({} : ContentIndex Ref) := by
  intro reference state h
  simp [status] at h

omit [LawfulEqOrd Ref] [DecidableEq Ref] in
lemma Lasts.mono {truth' : Ref → ContentState} (h : Lasts truth index)
    (hstays : ∀ reference, truth reference = .available → truth' reference = .available) :
    Lasts truth' index :=
  ⟨h.pending, fun reference hsome => hstays reference (h.available reference hsome)⟩

/-! ## Removing -/

/-- An owner is removed: the reference stays as it is, or goes. -/
lemma remove_cases (index : ContentIndex Ref) (reference : Ref) (owner : OpId) :
    (∀ other, (index.remove reference owner).status other = index.status other)
        ∧ (index.remove reference owner).pending = index.pending
      ∨ (∀ other, (index.remove reference owner).status other
          = if reference = other then none else index.status other)
        ∧ ∀ other, other ∈ (index.remove reference owner).pending
          ↔ reference ≠ other ∧ other ∈ index.pending := by
  unfold remove
  cases hentry : index.entries[reference]? with
  | none => exact .inl ⟨fun _ => rfl, rfl⟩
  | some entry =>
    dsimp only
    split
    · right
      constructor
      · intro other
        unfold status
        dsimp only
        rw [ExtTreeMap.getElem?_erase]
        by_cases hsame : reference = other
        · rw [if_pos (by simpa using hsame), if_pos hsame]
          rfl
        · rw [if_neg (by simpa using hsame), if_neg hsame]
      · intro other
        rw [ExtTreeSet.mem_erase]
        simp
    · left
      refine ⟨fun other => ?_, rfl⟩
      unfold status
      dsimp only
      rw [ExtTreeMap.getElem?_insert]
      by_cases hsame : reference = other
      · subst hsame
        rw [if_pos (by simp), hentry]
        rfl
      · rw [if_neg (by simpa using hsame)]

lemma Lasts.remove (h : Lasts truth index) (reference : Ref) (owner : OpId) :
    Lasts truth (index.remove reference owner) := by
  rcases remove_cases index reference owner with ⟨hstatus, hpending⟩ | ⟨hstatus, hpending⟩
  · refine ⟨fun other => ?_, fun other => ?_⟩
    · rw [hpending, hstatus]
      exact h.pending other
    · rw [hstatus]
      exact h.available other
  · refine ⟨fun other => ?_, fun other hsome => ?_⟩
    · rw [hpending, hstatus, h.pending]
      by_cases hsame : reference = other
      · simp [hsame]
      · simp [hsame]
    · rw [hstatus] at hsome
      split at hsome
      · cases hsome
      · exact h.available other hsome

/-! ## Adding -/

/-- One more owner: a reference that is not indexed yet is read. -/
lemma add_cases {reference : Ref} {owner : OpId} {reads reads' : ℕ}
    (h : (index.add answering reference owner reads).exec answers
      = (.ok (index', reads'), answers')) :
    answers' = answers ∧ ((∀ other, index'.status other = index.status other)
        ∧ index'.pending = index.pending
      ∨ ∃ state, answers reference = .ok state ∧ index.status reference = none
        ∧ (∀ other, index'.status other
          = if reference = other then some state else index.status other)
        ∧ index'.pending
          = if state ≠ .available then index.pending.insert reference else index.pending) := by
  unfold add at h
  obtain ⟨⟨found, reads₁⟩, s₁, hdiscover, h⟩ := exec_bind_eq_ok.mp h
  cases h
  have hmodify : ∀ other : Ref, ContentIndex.status { found with
      entries := found.entries.modify reference fun entry =>
        { entry with owners := entry.owners.insert owner } } other = found.status other := by
    intro other
    unfold status
    dsimp only
    rw [ExtTreeMap.getElem?_modify]
    by_cases hsame : reference = other
    · subst hsame
      rw [if_pos (by simp)]
      cases found.entries[reference]? <;> rfl
    · rw [if_neg (by simpa using hsame)]
  unfold discover at hdiscover
  split at hdiscover
  · cases hdiscover
    exact ⟨rfl, .inl ⟨hmodify, rfl⟩⟩
  · next hnew =>
    obtain ⟨state, s₂, hanswer, hdiscover⟩ := exec_bind_eq_ok.mp hdiscover
    obtain ⟨hstate, rfl⟩ := Prod.mk.inj hanswer
    cases hdiscover
    refine ⟨rfl, .inr ⟨state, hstate, ?_, fun other => ?_, rfl⟩⟩
    · unfold status
      rw [ExtTreeMap.mem_iff_isSome_getElem?, Option.not_isSome_iff_eq_none] at hnew
      rw [hnew]
      rfl
    · rw [hmodify]
      unfold status
      dsimp only
      rw [ExtTreeMap.getElem?_insert]
      by_cases hsame : reference = other
      · rw [if_pos (by simpa using hsame), if_pos hsame]
        rfl
      · rw [if_neg (by simpa using hsame), if_neg hsame]

lemma Lasts.add (h : Lasts truth index) (hhonest : Honest truth answers) {reference : Ref}
    {owner : OpId} {reads reads' : ℕ}
    (hadd : (index.add answering reference owner reads).exec answers
      = (.ok (index', reads'), answers')) :
    answers' = answers ∧ Lasts truth index' ∧ (Current truth index → Current truth index') := by
  obtain ⟨rfl, ⟨hstatus, hpending⟩ | ⟨state, hanswer, hnone, hstatus, hpending⟩⟩ := add_cases hadd
  · refine ⟨rfl, ⟨fun other => ?_, fun other => ?_⟩, fun hcurrent other found hfound => ?_⟩
    · rw [hpending, hstatus]
      exact h.pending other
    · rw [hstatus]
      exact h.available other
    · rw [hstatus] at hfound
      exact hcurrent other found hfound
  · have htrue := hhonest reference state hanswer
    refine ⟨rfl, ⟨fun other => ?_, fun other hsome => ?_⟩, fun hcurrent other found hfound => ?_⟩
    · rw [hpending, hstatus]
      by_cases hsame : reference = other
      · subst hsame
        have hnot : reference ∉ index.pending := by
          rw [h.pending, hnone]
          simp
        by_cases havailable : state = .available
        · simp [havailable, hnot]
        · simp [havailable]
      · rw [if_neg hsame, ← h.pending other]
        split
        · rw [ExtTreeSet.mem_insert]
          simp [hsame]
        · rfl
    · rw [hstatus] at hsome
      split at hsome
      · next hsame =>
        cases hsome
        rw [← hsame, ← htrue]
      · exact h.available other hsome
    · rw [hstatus] at hfound
      split at hfound
      · next hsame =>
        cases hfound
        rw [← hsame]
        exact htrue
      · exact hcurrent other found hfound

/-! ## Refreshing -/

/-- A pending reference is asked for again. -/
lemma resolve_cases (h : Lasts truth index) {reference : Ref} (hpending : reference ∈ index.pending)
    (changed : ExtTreeSet OpId) :
    (∀ other, (index.resolve reference (truth reference) changed).1.status other
        = if reference = other then some (truth reference) else index.status other)
      ∧ (∀ other, other ∈ (index.resolve reference (truth reference) changed).1.pending
        ↔ other ∈ index.pending ∧ (reference = other → truth reference ≠ .available)) := by
  obtain ⟨old, hold, -⟩ := (h.pending reference).mp hpending
  unfold status at hold
  obtain ⟨entry, hentry, -⟩ := Option.map_eq_some_iff.mp hold
  have hrest : ∀ other, other ∈ (if truth reference = .available then
      index.pending.erase reference else index.pending)
        ↔ other ∈ index.pending ∧ (reference = other → truth reference ≠ .available) := by
    intro other
    split
    · next havailable =>
      rw [ExtTreeSet.mem_erase]
      simp only [ne_eq, Std.compare_eq_iff_eq, havailable, not_true_eq_false, imp_false]
      exact and_comm
    · next hnot =>
      simp [hnot]
  unfold resolve
  rw [hentry]
  dsimp only
  by_cases hsame : entry.state = truth reference
  · rw [if_neg (not_not.mpr hsame)]
    refine ⟨fun other => ?_, hrest⟩
    unfold status
    dsimp only
    by_cases heq : reference = other
    · subst heq
      rw [if_pos rfl, hentry, ← hsame]
      rfl
    · rw [if_neg heq]
  · rw [if_pos hsame]
    refine ⟨fun other => ?_, hrest⟩
    unfold status
    dsimp only
    rw [ExtTreeMap.getElem?_insert]
    by_cases heq : reference = other
    · rw [if_pos (by simpa using heq), if_pos heq]
      rfl
    · rw [if_neg (by simpa using heq), if_neg heq]

lemma Lasts.resolve (h : Lasts truth index) {reference : Ref} (hpending : reference ∈ index.pending)
    (changed : ExtTreeSet OpId) :
    Lasts truth (index.resolve reference (truth reference) changed).1 := by
  obtain ⟨hstatus, hrest⟩ := resolve_cases h hpending changed
  refine ⟨fun other => ?_, fun other hsome => ?_⟩
  · rw [hrest, hstatus]
    by_cases hsame : reference = other
    · subst hsame
      simp [hpending]
    · rw [if_neg hsame, ← h.pending other]
      simp [hsame]
  · rw [hstatus] at hsome
    split at hsome
    · next hsame =>
      rw [← hsame]
      exact Option.some.inj hsome
    · exact h.available other hsome

lemma Lasts.refreshLoop (h : Lasts truth index) (hhonest : Honest truth answers)
    {references : List Ref} (hnodup : references.Nodup)
    (hpending : ∀ reference ∈ references, reference ∈ index.pending)
    {changed changed' : ExtTreeSet OpId} {reads reads' : ℕ}
    (hexec : (ContentIndex.refreshLoop answering references index changed reads).exec answers
      = (.ok (index', changed', reads'), answers')) :
    answers' = answers ∧ Lasts truth index'
      ∧ (∀ reference ∈ references, index'.status reference = some (truth reference))
      ∧ ∀ other, other ∉ references → index'.status other = index.status other := by
  induction references generalizing index changed reads with
  | nil =>
    cases hexec
    exact ⟨rfl, h, nofun, fun _ _ => rfl⟩
  | cons reference rest ih =>
    rw [ContentIndex.refreshLoop] at hexec
    obtain ⟨state, s₁, hanswer, hexec⟩ := exec_bind_eq_ok.mp hexec
    obtain ⟨hstate, rfl⟩ := Prod.mk.inj hanswer
    obtain ⟨hnew, hnodup⟩ := List.nodup_cons.mp hnodup
    obtain rfl : state = truth reference := hhonest reference state hstate
    have hfirst : reference ∈ index.pending := hpending reference List.mem_cons_self
    obtain ⟨hstatus, hrest⟩ := resolve_cases h hfirst changed
    have hlasts := h.resolve hfirst changed
    change (ContentIndex.refreshLoop answering rest
      (index.resolve reference (truth reference) changed).1
      (index.resolve reference (truth reference) changed).2 (reads + 1)).exec answers = _ at hexec
    obtain ⟨hsame, hlast, hall, hothers⟩ := ih hlasts hnodup (fun other hother => by
      rw [hrest]
      refine ⟨hpending other (List.mem_cons_of_mem _ hother), fun heq => ?_⟩
      rw [heq] at hnew
      exact absurd hother hnew) hexec
    refine ⟨hsame, hlast, fun other hother => ?_, fun other hother => ?_⟩
    · rcases List.mem_cons.mp hother with rfl | hother
      · rw [hothers _ hnew, hstatus, if_pos rfl]
      · exact hall other hother
    · rw [List.mem_cons, not_or] at hother
      rw [hothers other hother.2, hstatus, if_neg (Ne.symm hother.1)]

/-- After a refresh the indexed availability is the present one. -/
lemma Lasts.refresh (h : Lasts truth index) (hhonest : Honest truth answers)
    {changed : ExtTreeSet OpId} {reads reads' : ℕ}
    (hexec : (index.refresh answering reads).exec answers
      = (.ok (index', changed, reads'), answers')) :
    answers' = answers ∧ Lasts truth index' ∧ Current truth index' := by
  have hnodup : index.pending.toList.Nodup := by
    apply ExtTreeSet.distinct_toList.imp
    intro a b hne heq
    exact hne (Std.compare_eq_iff_eq.mpr heq)
  obtain ⟨hsame, hlasts, hall, hothers⟩ := h.refreshLoop hhonest hnodup
    (fun reference hmem => ExtTreeSet.mem_toList.mp hmem) hexec
  refine ⟨hsame, hlasts, fun reference state hstate => ?_⟩
  by_cases hpending : reference ∈ index.pending
  · rw [hall reference (ExtTreeSet.mem_toList.mpr hpending)] at hstate
    exact (Option.some.inj hstate).symm
  · rw [hothers reference fun hmem => hpending (ExtTreeSet.mem_toList.mp hmem)] at hstate
    -- what is not pending was available
    have havailable : state = .available := by
      by_contra hne
      exact hpending ((h.pending reference).mpr ⟨state, hstate, hne⟩)
    rw [havailable] at hstate ⊢
    exact (h.available reference hstate).symm

end ContentIndex
end EditChain.Index
