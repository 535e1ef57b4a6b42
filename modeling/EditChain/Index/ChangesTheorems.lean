import EditChain.Index.Changes
import EditChain.IndexPages.OrderedTheorems
import EditChain.Lib.Fallible
import Mathlib.Data.Set.Insert

/-!
# Following the journal

The journal stands for the list of all changes of its generation, of which it retains the last ones.
A page from a position is the next stretch of that list, and the pages that follow one another make
up all that was recorded after the position.
-/

namespace EditChain.Index

open IndexPages Fallible
open Std (ExtTreeMap)

namespace ChangeLog

variable {log : ChangeLog} {all : List IndexChange}

/-- The changes from an index on, each under its position. -/
def numbered (all : List IndexChange) (start : ℕ) : List (ℕ × IndexChange) :=
  (all.drop start).mapIdx fun i change => (start + i + 1, change)

/-- The number of changes that are not retained. -/
def dropped (all : List IndexChange) : ℕ := all.length - retainedChanges

/-- A map that holds the changes from an index on. -/
def Holds (reference : ExtTreeMap ℕ IndexChange) (all : List IndexChange) (start : ℕ) : Prop :=
  ∀ key change, reference[key]? = some change ↔ start < key ∧ all[key - 1]? = some change

/-- The journal of the changes of a generation: it retains the last of them. -/
structure Records (log : ChangeLog) (all : List IndexChange) : Prop where
  position : log.revision.position = all.length
  bounded : all.length ≤ positionMax
  retained : ∃ reference, log.entries.Reflects reference ∧ Holds reference all (dropped all)

/-! ## Numbered changes -/

lemma mem_numbered {start key : ℕ} {change : IndexChange} :
    (key, change) ∈ numbered all start ↔ start < key ∧ all[key - 1]? = some change := by
  unfold numbered
  rw [List.mem_iff_getElem?]
  constructor
  · intro h
    obtain ⟨i, hi⟩ := h
    rw [List.getElem?_mapIdx, List.getElem?_drop] at hi
    obtain ⟨found, hfound, hpair⟩ := Option.map_eq_some_iff.mp hi
    cases hpair
    exact ⟨by omega, by rw [← hfound]; congr 1⟩
  · intro h
    obtain ⟨hlt, hchange⟩ := h
    refine ⟨key - 1 - start, ?_⟩
    rw [List.getElem?_mapIdx, List.getElem?_drop, show start + (key - 1 - start) = key - 1 by omega,
      hchange]
    simp only [Option.map_some, Option.some.injEq, Prod.mk.injEq, and_true]
    omega

lemma sorted_numbered (all : List IndexChange) (start : ℕ) :
    (numbered all start).Pairwise fun a b => a.1 < b.1 := by
  rw [List.pairwise_iff_getElem]
  intro i j hi hj hij
  simp only [numbered, List.getElem_mapIdx]
  omega

lemma map_snd_numbered (all : List IndexChange) (start : ℕ) :
    (numbered all start).map Prod.snd = all.drop start := by
  unfold numbered
  apply List.ext_getElem?
  intro i
  simp

/-- The changes of such a map in order. -/
lemma Holds.toList_eq {reference : ExtTreeMap ℕ IndexChange} {start : ℕ}
    (h : Holds reference all start) : reference.toList = numbered all start := by
  have hlist : reference.toList.Pairwise fun a b => a.1 < b.1 := by
    refine ExtTreeMap.ordered_keys_toList.imp ?_
    intro a b hab
    exact compare_lt_iff_lt.mp hab
  apply eq_of_sorted hlist (sorted_numbered all _)
  intro pair
  rw [ExtTreeMap.mem_toList_iff_getElem?_eq_some, h, mem_numbered]

lemma Holds.size_eq {reference : ExtTreeMap ℕ IndexChange} {start : ℕ}
    (h : Holds reference all start) : reference.size = all.length - start := by
  rw [← ExtTreeMap.length_toList, h.toList_eq]
  simp [numbered]

/-- The first change of such a map. -/
lemma Holds.head?_eq {reference : ExtTreeMap ℕ IndexChange} {start : ℕ}
    (h : Holds reference all start) :
    reference.toList.head? = all[start]?.map fun change => (start + 1, change) := by
  rw [h.toList_eq]
  simp [numbered, List.head?_mapIdx, List.head?_drop]

/-- What a range after a position yields. -/
lemma filter_numbered {start position : ℕ} (h : start ≤ position) :
    ((numbered all start).filter fun pair => Within (.excluded position) .unbounded pair.1)
      = numbered all position := by
  apply eq_of_sorted ((sorted_numbered all start).filter _) (sorted_numbered all position)
  intro pair
  rw [List.mem_filter, mem_numbered, mem_numbered]
  simp only [Within, Bool.and_true, decide_eq_true_eq]
  constructor
  · intro hin
    exact ⟨hin.2, hin.1.2⟩
  · intro hin
    exact ⟨⟨by omega, hin.2⟩, hin.1⟩

/-! ## Appending -/

lemma records_empty (generation : String) : Records { revision := ⟨generation, 0⟩ } [] := by
  refine ⟨rfl, Nat.zero_le _, ∅, OrderedMap.reflects_empty, fun key change => ?_⟩
  simp

/-- A journal that does not retain too much stays as it is. -/
lemma trim_of_le {entries : OrderedMap ℕ IndexChange} (h : entries.len ≤ retainedChanges)
    (fuel : ℕ) : trim fuel entries = entries := by
  cases fuel with
  | zero => rfl
  | succ fuel =>
    rw [trim, if_neg (by omega)]

/-- One change too many: the oldest goes. -/
lemma trim_spec {entries : OrderedMap ℕ IndexChange} {reference : ExtTreeMap ℕ IndexChange}
    {start : ℕ} (h : entries.Reflects reference) (hholds : Holds reference all start)
    (hsize : all.length - start ≤ retainedChanges + 1) :
    ∃ reference', (trim entries.len entries).Reflects reference'
      ∧ Holds reference' all
        (if retainedChanges < all.length - start then start + 1 else start) := by
  have hlen : entries.len = all.length - start := by
    rw [h.len_eq, hholds.size_eq]
    have hsmall : retainedChanges + 1 ≤ 2 ^ 64 - 1 := by
      unfold retainedChanges
      omega
    omega
  by_cases hmany : retainedChanges < all.length - start
  · rw [if_pos hmany]
    have hstart : start < all.length := by omega
    have hfirst : entries.firstKeyValue = some (start + 1, all[start]) := by
      rw [h.firstKeyValue_eq, hholds.head?_eq, List.getElem?_eq_getElem hstart]
      rfl
    have hstep : trim entries.len entries = (entries.remove (start + 1)).1 := by
      obtain ⟨fuel, hfuel⟩ : ∃ fuel, entries.len = fuel + 1 := ⟨entries.len - 1, by omega⟩
      rw [hfuel, trim, if_pos (by omega), hfirst]
      apply trim_of_le
      have hremoved := h.remove (start + 1)
      have hkey : (start + 1) ∈ reference := by
        rw [ExtTreeMap.mem_iff_isSome_getElem?, (hholds (start + 1) all[start]).mpr]
        · rfl
        · exact ⟨by omega, List.getElem?_eq_getElem hstart⟩
      rw [hremoved.len_eq, ExtTreeMap.size_erase, if_pos (by simpa using hkey), hholds.size_eq]
      omega
    refine ⟨reference.erase (start + 1), ?_, fun key change => ?_⟩
    · rw [hstep]
      exact h.remove (start + 1)
    · rw [ExtTreeMap.getElem?_erase]
      by_cases hkey : start + 1 = key
      · subst hkey
        simp
      · rw [if_neg (by simpa using hkey), hholds]
        constructor
        · intro hin
          exact ⟨by omega, hin.2⟩
        · intro hin
          exact ⟨by omega, hin.2⟩
  · rw [if_neg hmany, trim_of_le (by omega)]
    exact ⟨reference, h, hholds⟩

lemma Records.append (h : log.Records all) {change : IndexChange} {log' : ChangeLog}
    (happend : log.append change = .ok log') :
    log'.Records (all ++ [change]) ∧ log'.revision.generation = log.revision.generation := by
  obtain ⟨reference, hreflects, hholds⟩ := h.retained
  unfold ChangeLog.append at happend
  split at happend
  · cases happend
  · next hroom =>
    cases happend
    rw [h.position] at hroom ⊢
    have hinserted : Holds (reference.insert (all.length + 1) change) (all ++ [change])
        (dropped all) := by
      intro key found
      rw [ExtTreeMap.getElem?_insert]
      by_cases hkey : all.length + 1 = key
      · subst hkey
        have hlt : dropped all < all.length + 1 := by
          unfold dropped
          omega
        simp [hlt]
      · rw [if_neg (by simpa using hkey), hholds, List.getElem?_append]
        refine and_congr_right fun hlt => ?_
        by_cases hin : key - 1 < all.length
        · rw [if_pos hin]
        · rw [if_neg hin, List.getElem?_eq_none (by omega), List.getElem?_eq_none]
          simp
          omega
    have hlength : (all ++ [change]).length = all.length + 1 := by simp
    obtain ⟨reference', hreflects', hholds'⟩ := trim_spec (hreflects.insert _ change) hinserted (by
      rw [hlength]
      unfold dropped
      omega)
    refine ⟨⟨?_, ?_, reference', hreflects', ?_⟩, rfl⟩
    · exact hlength.symm
    · rw [hlength]
      omega
    · have hstart : dropped (all ++ [change]) = if retainedChanges < (all ++ [change]).length
          - dropped all then dropped all + 1 else dropped all := by
        unfold dropped
        rw [hlength]
        split <;> omega
      rw [hstart]
      exact hholds'

lemma Records.appendAll (h : log.Records all) {changes : List IndexChange} {log' : ChangeLog}
    (happend : log.appendAll changes = .ok log') :
    log'.Records (all ++ changes) ∧ log'.revision.generation = log.revision.generation := by
  induction changes generalizing log all with
  | nil =>
    cases happend
    rw [List.append_nil]
    exact ⟨h, rfl⟩
  | cons change changes ih =>
    rw [ChangeLog.appendAll] at happend
    obtain ⟨next, hnext, happend⟩ := bind_eq_ok.mp happend
    obtain ⟨hone, hgeneration⟩ := h.append hnext
    obtain ⟨hrest, hsame⟩ := ih hone happend
    rw [List.append_assoc] at hrest
    exact ⟨hrest, hsame.trans hgeneration⟩

/-! ## Pages -/

/-- A stretch of what is left at the front of a range. -/
lemma takeFront_eq_take {K V : Type} [LinearOrder K] {range : Range K V}
    (h : range.tree.root.Ordered) (limit : ℕ) : range.takeFront limit = range.rest.take limit := by
  induction limit generalizing range with
  | zero => rfl
  | succ limit ih =>
    obtain ⟨hrest, hnone, htree⟩ := range.next_spec h
    rw [Range.takeFront]
    split
    · next hnext =>
      rw [(hnone (by rw [hnext])).1]
      rfl
    · next pair next hnext =>
      rw [hnext] at hrest htree
      rw [hrest, ih (by rwa [htree])]
      rfl

/-- The page from a position of the journal: the next stretch of the changes after it. -/
def page (log : ChangeLog) (all : List IndexChange) (after : IndexRevision) (limit : ℕ) :
    IndexChanges where
  revision := log.revision
  next := { after with position := min (after.position + limit) all.length }
  changes := (all.drop after.position).take limit
  complete := decide (all.length ≤ after.position + limit)

lemma dropped_le (all : List IndexChange) : dropped all ≤ all.length := Nat.sub_le _ _

/-- The last change is retained. -/
lemma dropped_lt (h : 0 < all.length) : dropped all < all.length := by
  have hpos : 0 < retainedChanges := by
    unfold retainedChanges
    omega
  exact Nat.sub_lt h hpos

/-- The first change that is retained lies beyond the next position. -/
lemma Holds.first_beyond {entries : OrderedMap ℕ IndexChange}
    {reference : ExtTreeMap ℕ IndexChange} {start position : ℕ}
    (hholds : Holds reference all start) (h : entries.Reflects reference)
    (hbounded : all.length ≤ positionMax) (hstart : start ≤ all.length)
    (hlast : 0 < all.length → start < all.length) :
    (entries.firstKeyValue.any fun first => decide (min (position + 1) positionMax < first.1))
        = true ↔ position < start := by
  rw [h.firstKeyValue_eq, hholds.head?_eq]
  cases hall : all[start]? with
  | none =>
    rw [List.getElem?_eq_none_iff] at hall
    simp only [Option.map_none, Option.any_none, Bool.false_eq_true, false_iff]
    omega
  | some change =>
    have hlt := (List.getElem?_eq_some_iff.mp hall).1
    simp only [Option.map_some, Option.any_some, decide_eq_true_eq]
    omega

/-- The position of the last numbered change. -/
lemma getLast?_numbered {position : ℕ} (h : position ≤ all.length) :
    ((numbered all position).getLast?.map Prod.fst).getD position = all.length := by
  have hlength : (numbered all position).length = all.length - position := by simp [numbered]
  rw [List.getLast?_eq_getElem?, hlength]
  by_cases hend : all.length = position
  · rw [List.getElem?_eq_none (by omega)]
    exact hend.symm
  · unfold numbered
    rw [List.getElem?_mapIdx, List.getElem?_drop, List.getElem?_eq_getElem (by omega)]
    simp only [Option.map_some, Option.getD_some]
    omega

/-- A stretch of numbered changes is one of all that end with it. -/
lemma take_numbered (all : List IndexChange) (position limit : ℕ) :
    (numbered all position).take limit = numbered (all.take (position + limit)) position := by
  apply List.ext_getElem?
  intro i
  unfold numbered
  rw [List.getElem?_take, List.getElem?_mapIdx, List.getElem?_mapIdx, List.getElem?_drop,
    List.getElem?_drop, List.getElem?_take]
  by_cases hlt : i < limit
  · rw [if_pos hlt, if_pos (by omega)]
  · rw [if_neg hlt, if_neg (by omega)]
    rfl

/-- A page is refused exactly where the journal does not cover what came after the position. -/
lemma Records.since_eq (h : log.Records all) {after : IndexRevision}
    (hgeneration : after.generation = log.revision.generation)
    (hposition : after.position ≤ all.length) {limit : ℕ} (hlimit : 1 ≤ limit ∧ limit ≤ 10000) :
    log.since after limit
      = .ok (if after.position < dropped all then none else some (log.page all after limit)) := by
  obtain ⟨reference, hreflects, hholds⟩ := h.retained
  have hfirst : _ ↔ after.position < dropped all :=
    hholds.first_beyond hreflects h.bounded (dropped_le all) dropped_lt
  generalize dropped all = start at hholds hfirst ⊢
  unfold since
  rw [if_neg (by omega)]
  by_cases hold : after.position < start
  · rw [if_pos (.inr (.inr (hfirst.mpr hold))), if_pos hold]
  · rw [if_neg, if_neg hold]
    · have htaken : (log.entries.range (.excluded after.position) .unbounded).takeFront limit
          = (numbered all after.position).take limit := by
        rw [takeFront_eq_take hreflects.ordered, hreflects.rest_range, hholds.toList_eq,
          filter_numbered (by omega)]
      have hlast : ((numbered (all.take (after.position + limit)) after.position).getLast?.map
          Prod.fst).getD after.position = min (after.position + limit) all.length := by
        rw [getLast?_numbered (by rw [List.length_take]; omega), List.length_take]
      have hcomplete : ({ after with position := min (after.position + limit) all.length }
          : IndexRevision) = log.revision ↔ all.length ≤ after.position + limit := by
        rw [IndexRevision.ext_iff, h.position]
        simp only [hgeneration, true_and]
        omega
      simp only [htaken, take_numbered, hlast, map_snd_numbered, page, hcomplete, List.drop_take,
        Nat.add_sub_cancel_left]
    · rw [h.position, hfirst]
      rintro (hne | hlt | hlt)
      · exact hne hgeneration
      · omega
      · exact hold hlt

/-- A change after a position was trimmed. -/
def Trimmed (log : ChangeLog) (position : ℕ) : Prop :=
  ∃ key, position < key ∧ key ≤ log.revision.position ∧ log.entries.get key = none

lemma Records.trimmed_iff (h : log.Records all) (position : ℕ) :
    log.Trimmed position ↔ position < dropped all := by
  obtain ⟨reference, hreflects, hholds⟩ := h.retained
  have hdropped := dropped_le all
  unfold Trimmed
  rw [h.position]
  generalize dropped all = start at *
  constructor
  · intro htrimmed
    obtain ⟨key, hlt, hle, hnone⟩ := htrimmed
    rw [hreflects.get] at hnone
    by_contra hkept
    have hsome : reference[key]? = some all[key - 1] :=
      (hholds key _).mpr ⟨by omega, List.getElem?_eq_getElem (by omega)⟩
    rw [hnone] at hsome
    cases hsome
  · intro hlt
    refine ⟨start, hlt, hdropped, ?_⟩
    rw [hreflects.get]
    cases hfound : reference[start]? with
    | none => rfl
    | some change =>
      have hin := ((hholds start change).mp hfound).1
      omega

/-- The pages from a position that is covered make up all changes after it, each once. -/
lemma Records.follow_eq (h : log.Records all) {limits : ℕ → ℕ}
    (hlimits : ∀ n, 1 ≤ limits n ∧ limits n ≤ 10000) {after : IndexRevision}
    (hgeneration : after.generation = log.revision.generation)
    (hposition : after.position ≤ all.length) (hkept : ¬ log.Trimmed after.position) {fuel : ℕ}
    (hfuel : all.length - after.position < fuel) :
    log.follow limits fuel after = .ok (some (all.drop after.position)) := by
  induction fuel generalizing after with
  | zero => omega
  | succ fuel ih =>
    have hlimit := hlimits fuel
    have hcovered : ¬ after.position < dropped all := fun hlt => hkept ((h.trimmed_iff _).mpr hlt)
    rw [follow, h.since_eq hgeneration hposition hlimit, if_neg hcovered]
    show (if (log.page all after (limits fuel)).complete = true then _ else _) = _
    by_cases hcomplete : all.length ≤ after.position + limits fuel
    · have hflag : (log.page all after (limits fuel)).complete = true := decide_eq_true hcomplete
      rw [if_pos hflag]
      show Except.ok (some ((all.drop after.position).take (limits fuel))) = _
      rw [List.take_of_length_le (by rw [List.length_drop]; omega)]
    · have hnext : (log.page all after (limits fuel)).next.position
          = after.position + limits fuel := by
        show min (after.position + limits fuel) all.length = _
        omega
      have hrest := @ih (log.page all after (limits fuel)).next hgeneration (by omega)
        (by
          rw [h.trimmed_iff, hnext]
          omega)
        (by omega)
      have hflag : ¬ (log.page all after (limits fuel)).complete = true := by
        simpa [page] using hcomplete
      rw [if_neg hflag, hrest, hnext]
      show Except.ok (some ((all.drop after.position).take (limits fuel) ++ _)) = _
      rw [← List.drop_drop, List.take_append_drop]

end ChangeLog

/-! ## Applying changes -/

/-- The accepted set after some changes. -/
def applyChanges (accepted : Set OpId) (changes : List IndexChange) : Set OpId :=
  changes.foldl (fun accepted change =>
    match change.kind with
    | .added => Insert.insert change.operation accepted
    | .removed => accepted \ {change.operation}
    | .content => accepted) accepted

lemma applyChanges_append (accepted : Set OpId) (xs ys : List IndexChange) :
    applyChanges accepted (xs ++ ys) = applyChanges (applyChanges accepted xs) ys :=
  List.foldl_append

lemma applyChanges_added (accepted : Set OpId) (ids : List OpId) :
    applyChanges accepted (ids.map (⟨·, .added⟩)) = accepted ∪ {id | id ∈ ids} := by
  induction ids generalizing accepted with
  | nil => simp [applyChanges]
  | cons id ids ih =>
    show applyChanges (Insert.insert id accepted) (ids.map (⟨·, .added⟩)) = _
    rw [ih]
    ext other
    simp only [Set.mem_union, Set.mem_insert_iff, Set.mem_ofPred_eq, List.mem_cons]
    tauto

lemma applyChanges_removed (accepted : Set OpId) (ids : List OpId) :
    applyChanges accepted (ids.map (⟨·, .removed⟩)) = accepted \ {id | id ∈ ids} := by
  induction ids generalizing accepted with
  | nil =>
    ext other
    simp [applyChanges]
  | cons id ids ih =>
    show applyChanges (accepted \ {id}) (ids.map (⟨·, .removed⟩)) = _
    rw [ih]
    ext other
    simp only [Set.mem_sdiff, Set.mem_singleton_iff, Set.mem_ofPred_eq, List.mem_cons]
    tauto

lemma applyChanges_content (accepted : Set OpId) (ids : List OpId) :
    applyChanges accepted (ids.map (⟨·, .content⟩)) = accepted := by
  induction ids generalizing accepted with
  | nil => rfl
  | cons id ids ih => exact ih accepted

end EditChain.Index
