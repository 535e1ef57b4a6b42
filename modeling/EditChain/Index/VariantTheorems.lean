import EditChain.Index.DrainTheorems

/-!
# Retained variants

An indexed chain keeps the location of every distinct record of an identity. A drain only adds
locations, at the identities that it reports, and each of them can be read back.
-/

namespace EditChain.Store

open Core Fallible
open Std (ExtTreeMap ExtTreeSet)

variable {Op : Type} [Schema Op] [Checksum] {d : Directory}

namespace IndexedChain

variable {chain chain' : IndexedChain Op}

/-- Only quarantined identities have further variants. -/
def Tidy (chain : IndexedChain Op) : Prop :=
  ∀ id : OpId, chain.conflicts[id]? ≠ none →
    ∃ entry, chain.entries[id]? = some entry ∧ entry.accepted = none

/-- Every retained variant can be read back under its identity. -/
def Located (d : Directory) (chain : IndexedChain Op) : Prop :=
  ∀ id location, location ∈ chain.recordLocations id →
    ∃ op : Op, readOpAt d location = .ok op ∧ Schema.id op = id

lemma Located.grows {d' : Directory} (h : Located d chain) (hgrows : d.Grows d') :
    Located d' chain := by
  intro id location hlocation
  obtain ⟨op, hread, hid⟩ := h id location hlocation
  exact ⟨op, readOpAt_grows hgrows hread, hid⟩

omit [Schema Op] [Checksum] in
lemma Tidy.conflicts_eq_none (h : chain.Tidy) {id : OpId} (hfree : ∀ entry,
    chain.entries[id]? = some entry → entry.accepted ≠ none) : chain.conflicts[id]? = none := by
  by_contra hne
  obtain ⟨entry, hentry, hnone⟩ := h id hne
  exact hfree entry hentry hnone

omit [Schema Op] [Checksum] in
/-- An accepted identity has one variant. -/
lemma Tidy.recordLocations_eq (h : chain.Tidy) {id : OpId} {location : OpRecordLocation} {op : Op}
    (hentry : chain.entries[id]? = some ⟨location, some op⟩) :
    chain.recordLocations id = [location] := by
  have hnone : chain.conflicts[id]? = none := by
    apply h.conflicts_eq_none
    intro entry hfound
    rw [hentry] at hfound
    cases hfound
    simp
  unfold recordLocations
  rw [hentry, hnone]
  rfl

/-- What an admission does to the variants. -/
inductive Varies (chain chain' : IndexedChain Op) (id : OpId) (location : OpRecordLocation) :
    Admission → Prop
  | accepted : chain.recordLocations id = [] → chain'.recordLocations id = [location] →
      Varies chain chain' id location .accepted
  | duplicate : chain'.recordLocations id = chain.recordLocations id →
      Varies chain chain' id location .duplicate
  | conflict : chain'.recordLocations id = chain.recordLocations id ++ [location] →
      Varies chain chain' id location .conflict

lemma admitRecord_varies (htidy : chain.Tidy) {op : Op} {encoded : Bytes}
    {location : OpRecordLocation} {admission : Admission}
    (h : (admitRecord d op encoded location).exec chain = (.ok admission, chain')) :
    Varies chain chain' (Schema.id op) location admission ∧ chain'.Tidy
      ∧ ∀ other, other ≠ Schema.id op →
        chain'.recordLocations other = chain.recordLocations other := by
  unfold admitRecord at h
  rw [exec_bind_of_ok (exec_get chain)] at h
  dsimp only at h
  obtain ⟨found, same, hclassify, h⟩ := exec_bind_eq_ok.mp h
  obtain ⟨hverdict, rfl⟩ := Prod.mk.inj hclassify
  cases found with
  | accepted =>
    cases h
    have hnew : chain.entries[Schema.id op]? = none := by
      change chain.classify d (Schema.id op) encoded = .ok .accepted at hverdict
      unfold classify at hverdict
      split at hverdict
      · next hnone => exact hnone
      · obtain ⟨known, -, hverdict⟩ := bind_eq_ok.mp hverdict
        split at hverdict <;> cases hverdict
    have hnone : chain.conflicts[Schema.id op]? = none := by
      apply htidy.conflicts_eq_none
      intro entry hentry
      rw [hnew] at hentry
      cases hentry
    refine ⟨.accepted ?_ ?_, fun id hid => ?_, fun other hother => ?_⟩
    · unfold recordLocations
      rw [hnew, hnone]
      rfl
    · unfold recordLocations
      dsimp only
      rw [hnone, ExtTreeMap.getElem?_insert_self]
      rfl
    · obtain ⟨entry, hentry, hquarantined⟩ := htidy id hid
      have hne : Schema.id op ≠ id := by
        intro heq
        rw [← heq, hnew] at hentry
        cases hentry
      refine ⟨entry, ?_, hquarantined⟩
      dsimp only
      rw [ExtTreeMap.getElem?_insert, if_neg (by simpa using hne)]
      exact hentry
    · unfold recordLocations
      dsimp only
      rw [ExtTreeMap.getElem?_insert, if_neg (by simpa using hother.symm)]
  | duplicate =>
    cases h
    exact ⟨.duplicate rfl, htidy, fun _ _ => rfl⟩
  | conflict =>
    dsimp only at h
    split at h
    · cases h
    · next entry hentry =>
      cases h
      refine ⟨.conflict ?_, fun id hid => ?_, fun other hother => ?_⟩
      · unfold recordLocations
        dsimp only
        rw [ExtTreeMap.getElem?_insert_self, ExtTreeMap.getElem?_insert_self, hentry]
        simp
      · dsimp only at hid ⊢
        by_cases hsame : Schema.id op = id
        · subst hsame
          exact ⟨_, ExtTreeMap.getElem?_insert_self, rfl⟩
        · rw [ExtTreeMap.getElem?_insert, if_neg (by simpa using hsame)] at hid ⊢
          exact htidy id hid
      · unfold recordLocations
        dsimp only
        rw [ExtTreeMap.getElem?_insert, if_neg (by simpa using hother.symm),
          ExtTreeMap.getElem?_insert, if_neg (by simpa using hother.symm)]

end IndexedChain

/-! ## Deltas -/

/-- A delta names the identities that got further variants. -/
structure ChainDelta.Spreads (d : Directory) (delta : ChainDelta Op)
    (before after : IndexedChain Op) : Prop where
  tidy : after.Tidy
  kept : ∀ id : OpId, id ∉ delta.removed → delta.added[id]? = none →
    after.recordLocations id = before.recordLocations id
  grown : ∀ id location, location ∈ before.recordLocations id →
    location ∈ after.recordLocations id
  single : ∀ (id : OpId) op location, delta.added[id]? = some (op, location) →
    after.recordLocations id = [location]
  located : ∀ id location, location ∈ after.recordLocations id →
    location ∈ before.recordLocations id ∨ ∃ op : Op, readOpAt d location = .ok op
      ∧ Schema.id op = id

namespace ChainDelta

variable {delta x y : ChainDelta Op} {before after a b c : IndexedChain Op}

lemma Spreads.fold (hx : x.Spreads d a b) (hy : y.Spreads d b c) :
    (Tail.fold x y).Spreads d a c := by
  refine ⟨hy.tidy, fun id hnr hna => ?_, fun id location hlocation => ?_,
    fun id op location hadded => ?_, fun id location hlocation => ?_⟩
  · rw [Tail.mem_removed_fold, not_or] at hnr
    rw [Tail.getElem?_added_fold, if_neg hnr.1, Option.or_eq_none_iff] at hna
    rw [hy.kept id hnr.1 hna.1, hx.kept id hnr.2 hna.2]
  · exact hy.grown id location (hx.grown id location hlocation)
  · rw [Tail.getElem?_added_fold] at hadded
    split at hadded
    · cases hadded
    · next hkept =>
      cases hnew : y.added[id]? with
      | some found =>
        rw [hnew] at hadded
        cases hadded
        exact hy.single id op location hnew
      | none =>
        rw [hnew] at hadded
        rw [hy.kept id hkept hnew]
        exact hx.single id op location hadded
  · rcases hy.located id location hlocation with hmiddle | hread
    · exact hx.located id location hmiddle
    · exact .inr hread

/-- One more admission. -/
lemma Spreads.admitted {chain chain' : IndexedChain Op} (h : delta.Spreads d before chain) {op : Op}
    {encoded : Bytes} {location : OpRecordLocation} (hread : readOpAt d location = .ok op)
    {admission : Admission} (hadmitted : (IndexedChain.admitRecord d op encoded location).exec chain
      = (.ok admission, chain')) :
    (Tail.note delta op location admission).Spreads d before chain' := by
  obtain ⟨hvaries, htidy, hothers⟩ := IndexedChain.admitRecord_varies h.tidy hadmitted
  cases hvaries with
  | accepted hnone hone =>
    refine ⟨htidy, fun id hnr hna => ?_, fun id place hplace => ?_, fun id found place hfound => ?_,
      fun id place hplace => ?_⟩
    · change (delta.added.insert (Schema.id op) (op, location))[id]? = none at hna
      rw [ExtTreeMap.getElem?_insert] at hna
      split at hna
      · cases hna
      · next hne =>
        rw [hothers id fun heq => hne (by simp [heq])]
        exact h.kept id hnr hna
    · have hold := h.grown id place hplace
      by_cases hsame : id = Schema.id op
      · subst hsame
        rw [hnone] at hold
        cases hold
      · rw [hothers id hsame]
        exact hold
    · change (delta.added.insert (Schema.id op) (op, location))[id]? = some (found, place) at hfound
      rw [ExtTreeMap.getElem?_insert] at hfound
      split at hfound
      · next hsame =>
        cases hfound
        rw [← Std.compare_eq_iff_eq.mp hsame]
        exact hone
      · next hne =>
        rw [hothers id fun heq => hne (by simp [heq])]
        exact h.single id found place hfound
    · by_cases hsame : id = Schema.id op
      · subst hsame
        rw [hone, List.mem_singleton] at hplace
        subst hplace
        exact .inr ⟨op, hread, rfl⟩
      · rw [hothers id hsame] at hplace
        exact h.located id place hplace
  | duplicate hsame =>
    have hall : ∀ id, chain'.recordLocations id = chain.recordLocations id := by
      intro id
      by_cases heq : id = Schema.id op
      · rw [heq, hsame]
      · exact hothers id heq
    refine ⟨htidy, fun id hnr hna => ?_, fun id place hplace => ?_, fun id found place hfound => ?_,
      fun id place hplace => ?_⟩
    · rw [hall]
      exact h.kept id hnr hna
    · rw [hall]
      exact h.grown id place hplace
    · rw [hall]
      exact h.single id found place hfound
    · rw [hall] at hplace
      exact h.located id place hplace
  | conflict hmore =>
    refine ⟨htidy, fun id hnr hna => ?_, fun id place hplace => ?_, fun id found place hfound => ?_,
      fun id place hplace => ?_⟩
    · have hother : id ∉ delta.removed.insert (Schema.id op) := hnr
      rw [ExtTreeSet.mem_insert, Std.compare_eq_iff_eq, not_or] at hother
      change (delta.added.erase (Schema.id op))[id]? = none at hna
      rw [ExtTreeMap.getElem?_erase, if_neg (by simpa using hother.1)] at hna
      rw [hothers id (Ne.symm hother.1)]
      exact h.kept id hother.2 hna
    · have hold := h.grown id place hplace
      by_cases hsame : id = Schema.id op
      · subst hsame
        rw [hmore]
        exact List.mem_append_left _ hold
      · rw [hothers id hsame]
        exact hold
    · change (delta.added.erase (Schema.id op))[id]? = some (found, place) at hfound
      rw [ExtTreeMap.getElem?_erase] at hfound
      split at hfound
      · cases hfound
      · next hne =>
        rw [hothers id fun heq => hne (by simp [heq])]
        exact h.single id found place hfound
    · by_cases hsame : id = Schema.id op
      · subst hsame
        rw [hmore, List.mem_append, List.mem_singleton] at hplace
        rcases hplace with hold | rfl
        · exact h.located _ place hold
        · exact .inr ⟨op, hread, rfl⟩
      · rw [hothers id hsame] at hplace
        exact h.located id place hplace

end ChainDelta

namespace Tail

open ChainDelta

lemma tells_spreads : Tells d (fun delta before after =>
    before.Tidy → @ChainDelta.Spreads Op _ _ d delta before after) where
  refl chain htidy :=
    ⟨htidy, fun _ _ _ => rfl, fun _ _ h => h, fun id op location h => by simp at h,
      fun _ _ h => .inl h⟩
  fold hx hy htidy := (hx htidy).fold (hy (hx htidy).tidy)
  of_eq {x y before after after'} h hadded hremoved hentries hconflicts htidy := by
    have hspreads := h htidy
    have hsame : ∀ id, after'.recordLocations id = after.recordLocations id := by
      intro id
      unfold IndexedChain.recordLocations
      rw [hentries, hconflicts]
    refine ⟨?_, ?_, ?_, ?_, ?_⟩
    · unfold IndexedChain.Tidy
      rw [hentries, hconflicts]
      exact hspreads.tidy
    · intro id
      rw [hadded, hremoved, hsame]
      exact hspreads.kept id
    · intro id
      rw [hsame]
      exact hspreads.grown id
    · intro id
      rw [hadded, hsame]
      exact hspreads.single id
    · intro id
      rw [hsame]
      exact hspreads.located id
  admitted h hread hadmitted htidy := (h htidy).admitted hread hadmitted

end Tail

end EditChain.Store
