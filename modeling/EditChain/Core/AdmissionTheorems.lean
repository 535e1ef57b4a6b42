import EditChain.Core.Admission
import EditChain.Lib.KeyedEvidence

/-!
# `OpSet` is a grow-only replicated set

The abstract value of an `OpSet` is the finite set of `(identity, bytes)` pairs it retains. The
set determines the structure (`ext_pairs`), insertion adds one pair and a merge is a union, so
convergence over any order and repetition is the convergence of unions. The accepted and the
conflict views are those of `KeyedEvidence` over that set.
-/

namespace EditChain.Core
namespace OpSet

open Std (ExtTreeMap ExtTreeSet)

/-! ## The retained pairs -/

/-- The pairs an evidence set retains. -/
def pairs (s : OpSet) : Finset (OpId × Bytes) := s.evidenceList.toFinset

lemma mem_evidenceList {s : OpSet} {id : OpId} {encoded : Bytes} :
    (id, encoded) ∈ s.evidenceList ↔ encoded ∈ s.variantsOf id := by
  simp only [evidenceList, List.mem_flatMap, List.mem_map, Prod.exists, Prod.mk.injEq,
    ExtTreeSet.mem_toList, ExtTreeMap.mem_toList_iff_getElem?_eq_some, variantsOf]
  constructor
  · rintro ⟨j, variants, hget, b, hb, rfl, rfl⟩
    simpa [hget] using hb
  · intro h
    cases hget : s.evidence[id]? with
    | none => simp [hget] at h
    | some variants => exact ⟨id, variants, hget, encoded, by simpa [hget] using h, rfl, rfl⟩

@[simp] lemma mem_pairs {s : OpSet} {id : OpId} {encoded : Bytes} :
    (id, encoded) ∈ s.pairs ↔ encoded ∈ s.variantsOf id := by
  rw [pairs, List.mem_toFinset, mem_evidenceList]

/-- Each retained pair is listed once. -/
lemma nodup_evidenceList (s : OpSet) : s.evidenceList.Nodup := by
  rw [evidenceList, List.nodup_flatMap]
  constructor
  · rintro ⟨id, variants⟩ -
    refine List.Nodup.map (fun a b h => (Prod.mk.inj h).2) ?_
    exact ExtTreeSet.distinct_toList.imp fun h heq => h (by simp [heq])
  · refine ExtTreeMap.distinct_keys_toList.imp ?_
    rintro ⟨id, variants⟩ ⟨j, variants'⟩ h
    simp only [Function.onFun, List.disjoint_left, List.mem_map, not_exists, not_and]
    rintro ⟨k, b⟩ ⟨_, _, hk⟩ b' _ hk'
    have : id = j := (Prod.mk.inj (hk.trans hk'.symm)).1
    exact h (by simp [this])

lemma card_pairs (s : OpSet) : s.pairs.card = s.evidenceList.length :=
  List.toFinset_card_of_nodup s.nodup_evidenceList

/-- An evidence set is determined by the pairs it retains. -/
lemma ext_pairs {s t : OpSet} (h : s.pairs = t.pairs) : s = t := by
  have hmem : ∀ id b, b ∈ s.variantsOf id ↔ b ∈ t.variantsOf id := by
    intro id b
    rw [← mem_pairs, ← mem_pairs, h]
  have hvar : ∀ id, s.variantsOf id = t.variantsOf id := fun id => ExtTreeSet.ext_mem (hmem id)
  apply OpSet.ext
  apply ExtTreeMap.ext_getElem?
  intro id
  -- an absent entry and a present one differ, because no entry is empty
  have hid := hvar id
  simp only [variantsOf] at hid
  cases hs : s.evidence[id]? with
  | none =>
    cases ht : t.evidence[id]? with
    | none => rfl
    | some v => exact absurd (by simpa [hs, ht] using hid.symm) (t.nonempty id v ht)
  | some u =>
    cases ht : t.evidence[id]? with
    | none => exact absurd (by simpa [hs, ht] using hid) (s.nonempty id u hs)
    | some v => simpa [hs, ht] using hid

@[simp] lemma pairs_new : new.pairs = ∅ := by
  ext ⟨id, b⟩
  simp [variantsOf, new]

/-! ## Insertion -/

lemma variantsOf_retain (s : OpSet) (id j : OpId) (encoded : Bytes) :
    (s.retain id encoded).variantsOf j
      = if id = j then (s.variantsOf id).insert encoded else s.variantsOf j := by
  simp only [variantsOf, retain, ExtTreeMap.getElem?_insert, Std.compare_eq_iff_eq]
  split <;> simp_all

@[simp] lemma pairs_retain (s : OpSet) (id : OpId) (encoded : Bytes) :
    (s.retain id encoded).pairs = insert (id, encoded) s.pairs := by
  ext ⟨j, b⟩
  simp only [mem_pairs, variantsOf_retain, Finset.mem_insert, Prod.mk.injEq]
  split
  · next h =>
    subst h
    rw [ExtTreeSet.mem_insert, Std.compare_eq_iff_eq, eq_comm (a := encoded)]
    simp
  · next h => simp [Ne.symm h]

/-- The variants of the abstract evidence are the retained representations. -/
lemma card_variants_pairs (s : OpSet) (id : OpId) :
    (KeyedEvidence.variants s.pairs id).card = (s.variantsOf id).size := by
  have hset : KeyedEvidence.variants s.pairs id = (s.variantsOf id).toList.toFinset := by
    ext b
    simp [ExtTreeSet.mem_toList]
  rw [hset, List.toFinset_card_of_nodup, ExtTreeSet.length_toList]
  exact ExtTreeSet.distinct_toList.imp fun h heq => h (by simp [heq])

/-- An identity has no entry exactly when it has no representation. -/
lemma getElem?_evidence_eq_none {s : OpSet} {id : OpId} :
    s.evidence[id]? = none ↔ s.variantsOf id = ∅ := by
  cases h : s.evidence[id]? with
  | none => simp [variantsOf, h]
  | some v => simpa [variantsOf, h] using s.nonempty id v h

/-- `insert` retains the record and answers what `classify` announced. -/
theorem insert_eq (s : OpSet) (id : OpId) (encoded : Bytes) :
    s.insert id encoded = (s.classify id encoded, s.retain id encoded) := by
  simp only [OpSet.insert, classify]
  cases h : s.evidence[id]? with
  | none =>
    have hv : s.variantsOf id = ∅ := getElem?_evidence_eq_none.mp h
    simp [hv, ExtTreeSet.size_insert]
  | some variants =>
    have hv : s.variantsOf id = variants := by simp [variantsOf, h]
    have hne : variants.size ≠ 0 := by
      intro hzero
      exact s.nonempty id variants h (ExtTreeSet.eq_empty_iff_size_eq_zero.mpr hzero)
    simp only [hv, ExtTreeSet.size_insert]
    by_cases hmem : encoded ∈ variants
    · simp [hmem]
    · simp [hmem, hne]

lemma classify_eq_accepted_iff {s : OpSet} {id : OpId} {encoded : Bytes} :
    s.classify id encoded = .accepted ↔ id ∉ KeyedEvidence.keys s.pairs := by
  simp only [KeyedEvidence.mem_keys, mem_pairs, not_exists, classify]
  cases h : s.evidence[id]? with
  | none => simp [getElem?_evidence_eq_none.mp h]
  | some variants =>
    have hv : s.variantsOf id = variants := by simp [variantsOf, h]
    have hne := s.nonempty id variants h
    simp only [hv]
    constructor
    · intro hif
      split at hif <;> cases hif
    · intro hall
      exact absurd (ExtTreeSet.ext_mem fun b => by simp [hall b]) hne

lemma classify_eq_duplicate_iff {s : OpSet} {id : OpId} {encoded : Bytes} :
    s.classify id encoded = .duplicate ↔ (id, encoded) ∈ s.pairs := by
  simp only [mem_pairs, classify, variantsOf]
  cases h : s.evidence[id]? with
  | none => simp
  | some variants => simp

/-! ## Insertion in order and merges -/

@[simp] lemma insertAll_nil (s : OpSet) : s.insertAll [] = ([], s) := rfl

lemma insertAll_cons (s : OpSet) (id : OpId) (encoded : Bytes) (rest : List (OpId × Bytes)) :
    s.insertAll ((id, encoded) :: rest)
      = (s.classify id encoded :: ((s.retain id encoded).insertAll rest).1,
          ((s.retain id encoded).insertAll rest).2) := by
  rw [insertAll, insert_eq]

@[simp] lemma length_insertAll (s : OpSet) (l : List (OpId × Bytes)) :
    (s.insertAll l).1.length = l.length := by
  induction l generalizing s with
  | nil => rfl
  | cons record l ih =>
    obtain ⟨id, encoded⟩ := record
    simp [insertAll_cons, ih]

@[simp] lemma pairs_insertAll (s : OpSet) (l : List (OpId × Bytes)) :
    (s.insertAll l).2.pairs = s.pairs ∪ l.toFinset := by
  induction l generalizing s with
  | nil => simp
  | cons record l ih =>
    obtain ⟨id, encoded⟩ := record
    rw [insertAll_cons]
    simp only [ih, pairs_retain, List.toFinset_cons, Finset.union_insert, Finset.insert_union]

/-- The counts of a list of outcomes. -/
def countAll (c : MergeCounts) (admissions : List Admission) : MergeCounts :=
  admissions.foldl MergeCounts.add c

/-- A merge inserts the other set's records in order and counts the outcomes. -/
lemma merge_eq (s t : OpSet) :
    s.merge t = ((s.insertAll t.evidenceList).2, countAll {} (s.insertAll t.evidenceList).1) := by
  have key : ∀ (l : List (OpId × Bytes)) (u : OpSet) (c : MergeCounts),
      l.foldl mergeStep (u, c) = ((u.insertAll l).2, countAll c (u.insertAll l).1) := by
    intro l
    induction l with
    | nil => intro u c; rfl
    | cons record l ih =>
      intro u c
      obtain ⟨id, encoded⟩ := record
      rw [List.foldl_cons, mergeStep, insert_eq, ih, insertAll_cons]
      rfl
  exact key t.evidenceList s {}

/-- A merge is the union of the retained pairs. -/
@[simp] lemma pairs_merge (s t : OpSet) : (s.merge t).1.pairs = s.pairs ∪ t.pairs := by
  rw [merge_eq, pairs_insertAll, ← pairs]

/-! ## The accepted view -/

/-- The accepted identities of an evidence set. -/
def acceptedIds (s : OpSet) : Finset OpId := KeyedEvidence.accepted s.pairs

/-- The conflicted identities of an evidence set. -/
def conflictedIds (s : OpSet) : Finset OpId := KeyedEvidence.conflicted s.pairs

lemma contains_iff {s : OpSet} {id : OpId} : s.contains id = true ↔ id ∈ s.acceptedIds := by
  rw [acceptedIds, KeyedEvidence.mem_accepted, card_variants_pairs, contains, variantsOf]
  cases h : s.evidence[id]? <;> simp

/-- The listed pairs of the accepted view: exactly one representation each. -/
lemma mem_iter {s : OpSet} {id : OpId} {encoded : Bytes} :
    (id, encoded) ∈ s.iter ↔ id ∈ s.acceptedIds ∧ (id, encoded) ∈ s.pairs := by
  simp only [iter, List.mem_filterMap, Prod.exists, ExtTreeMap.mem_toList_iff_getElem?_eq_some]
  rw [acceptedIds, KeyedEvidence.mem_accepted, card_variants_pairs, mem_pairs]
  constructor
  · rintro ⟨j, variants, hget, hif⟩
    by_cases hsize : variants.size = 1
    · simp only [hsize, if_true, Option.map_eq_some_iff, Prod.mk.injEq] at hif
      obtain ⟨b, hb, rfl, rfl⟩ := hif
      have hv : s.variantsOf j = variants := by simp [variantsOf, hget]
      rw [hv]
      exact ⟨hsize, (ExtTreeSet.min?_eq_some_iff_mem_and_forall.mp hb).1⟩
    · simp [hsize] at hif
  · rintro ⟨hsize, hmem⟩
    cases hget : s.evidence[id]? with
    | none => simp [getElem?_evidence_eq_none.mp hget] at hmem
    | some variants =>
      have hv : s.variantsOf id = variants := by simp [variantsOf, hget]
      rw [hv] at hsize hmem
      refine ⟨id, variants, hget, ?_⟩
      -- a one-element set has its only element as minimum
      cases hmin : variants.min? with
      | none =>
        rw [ExtTreeSet.min?_eq_none_iff] at hmin
        simp [hmin] at hsize
      | some b =>
        have hb := (ExtTreeSet.min?_eq_some_iff_mem_and_forall.mp hmin).1
        have heq : b = encoded := by
          rw [← ExtTreeSet.length_toList, List.length_eq_one_iff] at hsize
          obtain ⟨c, hc⟩ := hsize
          rw [← ExtTreeSet.mem_toList, hc, List.mem_singleton] at hb hmem
          rw [hb, hmem]
        simp [hsize, heq]

/-- No identity is listed twice in the accepted view. -/
lemma nodup_iter_ids (s : OpSet) : (s.iter.map Prod.fst).Nodup := by
  rw [List.Nodup, List.pairwise_map, iter, List.pairwise_filterMap]
  refine ExtTreeMap.distinct_keys_toList.imp ?_
  rintro ⟨id, variants⟩ ⟨j, variants'⟩ hne ⟨id', b⟩ hb ⟨j', b'⟩ hb' heq
  simp only [Option.ite_none_right_eq_some, Option.map_eq_some_iff, Prod.mk.injEq] at hb hb'
  obtain ⟨-, _, -, rfl, -⟩ := hb
  obtain ⟨-, _, -, rfl, -⟩ := hb'
  exact hne (by simpa using heq)

/-- The length of the accepted view is the number of accepted identities. -/
lemma len_eq_card (s : OpSet) : s.len = s.acceptedIds.card := by
  have hset : s.acceptedIds = (s.iter.map Prod.fst).toFinset := by
    ext id
    simp only [List.mem_toFinset, List.mem_map, Prod.exists, exists_and_right, exists_eq_right,
      mem_iter]
    constructor
    · intro h
      have hcard := KeyedEvidence.mem_accepted.mp h
      obtain ⟨b, hb⟩ := Finset.card_pos.mp (hcard ▸ Nat.one_pos)
      exact ⟨b, h, KeyedEvidence.mem_variants.mp hb⟩
    · rintro ⟨b, h, -⟩
      exact h
  rw [hset, List.toFinset_card_of_nodup s.nodup_iter_ids, List.length_map, len]

/-- The conflict view lists the conflicted identities with all their representations. -/
lemma mem_conflicts {s : OpSet} {id : OpId} {variants : Variants} :
    (id, variants) ∈ s.conflicts ↔ id ∈ s.conflictedIds ∧ s.variantsOf id = variants := by
  simp only [conflicts, List.mem_filter, ExtTreeMap.mem_toList_iff_getElem?_eq_some,
    decide_eq_true_eq]
  rw [conflictedIds, KeyedEvidence.mem_conflicted, card_variants_pairs]
  constructor
  · rintro ⟨hget, hsize⟩
    have hv : s.variantsOf id = variants := by simp [variantsOf, hget]
    exact ⟨hv ▸ hsize, hv⟩
  · rintro ⟨hsize, rfl⟩
    refine ⟨?_, hsize⟩
    cases hget : s.evidence[id]? with
    | none => simp [getElem?_evidence_eq_none.mp hget] at hsize
    | some v => simp [variantsOf, hget]

/-! ## Acceptance during a list of insertions -/

/-- The identities whose insertion was answered `accepted`, in order. -/
def newlyAccepted (s : OpSet) (l : List (OpId × Bytes)) : List OpId :=
  ((l.zip (s.insertAll l).1).filter (·.2 = .accepted)).map (·.1.1)

lemma newlyAccepted_cons (s : OpSet) (id : OpId) (encoded : Bytes) (l : List (OpId × Bytes)) :
    s.newlyAccepted ((id, encoded) :: l)
      = if s.classify id encoded = .accepted then id :: (s.retain id encoded).newlyAccepted l
        else (s.retain id encoded).newlyAccepted l := by
  simp only [newlyAccepted, insertAll_cons, List.zip_cons_cons, List.filter_cons, decide_eq_true_eq]
  split <;> rfl

/-- The `accepted` count is the number of newly accepted identities, and the three counts add up
to the number of insertions. -/
lemma countAll_insertAll (s : OpSet) (l : List (OpId × Bytes)) (c : MergeCounts) :
    (countAll c (s.insertAll l).1).accepted = c.accepted + (s.newlyAccepted l).length ∧
      (countAll c (s.insertAll l).1).accepted + (countAll c (s.insertAll l).1).duplicates
          + (countAll c (s.insertAll l).1).conflicts
        = c.accepted + c.duplicates + c.conflicts + l.length := by
  induction l generalizing s c with
  | nil => simp [countAll, newlyAccepted]
  | cons record l ih =>
    obtain ⟨id, encoded⟩ := record
    have hstep := ih (s.retain id encoded) (c.add (s.classify id encoded))
    rw [insertAll_cons, newlyAccepted_cons]
    have hcount : countAll c (s.classify id encoded :: ((s.retain id encoded).insertAll l).1)
        = countAll (c.add (s.classify id encoded)) ((s.retain id encoded).insertAll l).1 := rfl
    simp only [hcount, List.length_cons]
    cases hclass : s.classify id encoded <;>
      simp only [hclass, MergeCounts.add, reduceCtorEq, if_true, if_false, List.length_cons]
        at hstep ⊢ <;> omega

/-- A newly accepted identity was unknown before, and is accepted once. -/
lemma newlyAccepted_fresh (s : OpSet) (l : List (OpId × Bytes)) :
    (s.newlyAccepted l).Nodup ∧ ∀ id ∈ s.newlyAccepted l, id ∉ KeyedEvidence.keys s.pairs := by
  induction l generalizing s with
  | nil => simp [newlyAccepted]
  | cons record l ih =>
    obtain ⟨id, encoded⟩ := record
    obtain ⟨hnodup, hfresh⟩ := ih (s.retain id encoded)
    simp only [pairs_retain, KeyedEvidence.keys_insert, Finset.mem_insert, not_or] at hfresh
    rw [newlyAccepted_cons]
    split
    · next hacc =>
      refine ⟨List.nodup_cons.mpr ⟨fun hid => (hfresh id hid).1 rfl, hnodup⟩, ?_⟩
      intro j hj
      rcases List.mem_cons.mp hj with rfl | hj
      · exact classify_eq_accepted_iff.mp hacc
      · exact (hfresh j hj).2
    · exact ⟨hnodup, fun j hj => (hfresh j hj).2⟩

/-- After the insertions the known identities are the old ones and the newly accepted ones. -/
lemma keys_insertAll (s : OpSet) (l : List (OpId × Bytes)) :
    KeyedEvidence.keys (s.insertAll l).2.pairs
      = KeyedEvidence.keys s.pairs ∪ (s.newlyAccepted l).toFinset := by
  induction l generalizing s with
  | nil => simp [newlyAccepted]
  | cons record l ih =>
    obtain ⟨id, encoded⟩ := record
    rw [insertAll_cons, newlyAccepted_cons]
    simp only [ih, pairs_retain, KeyedEvidence.keys_insert]
    split
    · rw [List.toFinset_cons, Finset.union_insert, Finset.insert_union]
    · next hacc =>
      have hknown : id ∈ KeyedEvidence.keys s.pairs := by
        by_contra hnew
        exact hacc (classify_eq_accepted_iff.mpr hnew)
      rw [Finset.insert_eq_of_mem hknown]

/-- The accepted identities after the insertions are those accepted before or during them, less
those that end conflicted. -/
lemma acceptedIds_insertAll (s : OpSet) (l : List (OpId × Bytes)) :
    (s.insertAll l).2.acceptedIds
      = (s.acceptedIds ∪ (s.newlyAccepted l).toFinset) \ (s.insertAll l).2.conflictedIds := by
  have hsub : s.conflictedIds ⊆ (s.insertAll l).2.conflictedIds := by
    apply KeyedEvidence.conflicted_mono
    rw [pairs_insertAll]
    exact Finset.subset_union_left
  have hkeys := keys_insertAll s l
  rw [← KeyedEvidence.accepted_union_conflicted s.pairs] at hkeys
  rw [acceptedIds, KeyedEvidence.accepted_eq_sdiff, hkeys]
  ext id
  have hid := @hsub id
  simp only [acceptedIds, conflictedIds] at hid ⊢
  simp only [Finset.mem_sdiff, Finset.mem_union]
  grind

/-- The number of accepted identities after the insertions. -/
lemma len_insertAll (s : OpSet) (l : List (OpId × Bytes)) :
    (s.insertAll l).2.len
        + ((s.acceptedIds ∪ (s.newlyAccepted l).toFinset)
            ∩ (s.insertAll l).2.conflictedIds).card
      = s.len + (s.newlyAccepted l).length := by
  obtain ⟨hnodup, hfresh⟩ := newlyAccepted_fresh s l
  have hdisj : Disjoint s.acceptedIds (s.newlyAccepted l).toFinset := by
    rw [Finset.disjoint_left]
    intro id hacc hnew
    refine hfresh id (List.mem_toFinset.mp hnew) ?_
    rw [← KeyedEvidence.accepted_union_conflicted]
    exact Finset.mem_union_left _ hacc
  rw [len_eq_card, len_eq_card, acceptedIds_insertAll, Finset.card_sdiff_add_card_inter,
    Finset.card_union_of_disjoint hdisj, List.toFinset_card_of_nodup hnodup]

/-! ## Convergence -/

/-- One further operation on an evidence set. -/
inductive Operation where
  | insert (id : OpId) (encoded : Bytes)
  | merge (other : OpSet)

/-- Apply one operation. -/
def apply (s : OpSet) : Operation → OpSet
  | .insert id encoded => (s.insert id encoded).2
  | .merge other => (s.merge other).1

/-- Apply a list of operations in order. -/
def applyAll (s : OpSet) (ops : List Operation) : OpSet := ops.foldl apply s

/-- The pairs one operation contributes. -/
def Operation.contributed : Operation → Finset (OpId × Bytes)
  | .insert id encoded => {(id, encoded)}
  | .merge other => other.pairs

/-- The pairs a list of operations contributes. -/
def contributed (ops : List Operation) : Finset (OpId × Bytes) :=
  ops.foldr (fun op acc => op.contributed ∪ acc) ∅

lemma pairs_apply (s : OpSet) (op : Operation) : (s.apply op).pairs = s.pairs ∪ op.contributed := by
  cases op with
  | insert id encoded =>
    rw [apply, insert_eq, pairs_retain, Operation.contributed, Finset.union_comm,
      Finset.insert_eq]
  | merge other => rw [apply, pairs_merge, Operation.contributed]

/-- A run retains what was there before and what its operations contributed. -/
lemma pairs_applyAll (s : OpSet) (ops : List Operation) :
    (s.applyAll ops).pairs = s.pairs ∪ contributed ops := by
  induction ops generalizing s with
  | nil => simp [applyAll, contributed]
  | cons op ops ih =>
    have hrun : s.applyAll (op :: ops) = (s.apply op).applyAll ops := rfl
    rw [hrun, ih, pairs_apply, Finset.union_assoc]
    rfl

/-- Every evidence set is reached by insertions alone. -/
lemma exists_applyAll_eq (s : OpSet) :
    new.applyAll (s.evidenceList.map fun record => .insert record.1 record.2) = s := by
  apply ext_pairs
  rw [pairs_applyAll, pairs_new, Finset.empty_union, pairs]
  induction s.evidenceList with
  | nil => rfl
  | cons record l ih =>
    rw [List.toFinset_cons, ← ih, Finset.insert_eq]
    rfl

/-- A conflict survives every further operation. -/
lemma not_contains_applyAll {s : OpSet} {id : OpId} {b c : Bytes} (hne : b ≠ c)
    (hb : b ∈ s.variantsOf id) (hc : c ∈ s.variantsOf id) (ops : List Operation) :
    (s.applyAll ops).contains id = false := by
  have hconf : id ∈ KeyedEvidence.conflicted (s.applyAll ops).pairs := by
    have hbefore : id ∈ KeyedEvidence.conflicted s.pairs :=
      KeyedEvidence.mem_conflicted_of_ne (mem_pairs.mpr hb) (mem_pairs.mpr hc) hne
    refine KeyedEvidence.conflicted_mono ?_ hbefore
    rw [pairs_applyAll]
    exact Finset.subset_union_left
  rw [Bool.eq_false_iff]
  intro hcontains
  have hacc : id ∈ KeyedEvidence.accepted (s.applyAll ops).pairs := contains_iff.mp hcontains
  exact Finset.disjoint_left.mp (KeyedEvidence.disjoint_accepted_conflicted _) hacc hconf

/-- **`OpSet` is a grow-only replicated set.** A merge is a join of evidence; a run of insertions
and merges is determined, in all its views, by the set of contributed pairs; a conflict is
permanent; `classify` announces what `insert` answers; and the counts of a merge account for every
pair of the other set and for the accepted identities afterwards. -/
theorem replicated_set :
    (∀ s t : OpSet, (s.merge t).1 = (t.merge s).1) ∧
    (∀ s t u : OpSet, ((s.merge t).1.merge u).1 = (s.merge (t.merge u).1).1) ∧
    (∀ s t : OpSet, (s.merge s).1 = s ∧ ((s.merge t).1.merge t).1 = (s.merge t).1) ∧
    (∀ ops ops' : List Operation, contributed ops = contributed ops' →
      (new.applyAll ops).evidenceList = (new.applyAll ops').evidenceList ∧
      (new.applyAll ops).iter = (new.applyAll ops').iter ∧
      (new.applyAll ops).contains = (new.applyAll ops').contains ∧
      (new.applyAll ops).len = (new.applyAll ops').len ∧
      (new.applyAll ops).conflicts = (new.applyAll ops').conflicts) ∧
    (∀ (s : OpSet) (id : OpId) (b c : Bytes), b ≠ c → b ∈ s.variantsOf id → c ∈ s.variantsOf id →
      ∀ ops : List Operation, (s.applyAll ops).contains id = false) ∧
    (∀ (s : OpSet) (id : OpId) (encoded : Bytes),
      s.classify id encoded = (s.insert id encoded).1) ∧
    (∀ s t : OpSet,
      (s.merge t).2.accepted + (s.merge t).2.duplicates + (s.merge t).2.conflicts
        = t.evidenceList.length ∧
      (s.merge t).1.len
          + ((s.acceptedIds ∪ (s.newlyAccepted t.evidenceList).toFinset)
              ∩ (s.merge t).1.conflictedIds).card
        = s.len + (s.merge t).2.accepted) := by
  refine ⟨?_, ?_, ?_, ?_, ?_, ?_, ?_⟩
  · intro s t
    apply ext_pairs
    rw [pairs_merge, pairs_merge, Finset.union_comm]
  · intro s t u
    apply ext_pairs
    rw [pairs_merge, pairs_merge, pairs_merge, pairs_merge, Finset.union_assoc]
  · intro s t
    refine ⟨ext_pairs ?_, ext_pairs ?_⟩
    · rw [pairs_merge, Finset.union_idempotent]
    · rw [pairs_merge, pairs_merge, Finset.union_assoc, Finset.union_idempotent]
  · intro ops ops' h
    have heq : new.applyAll ops = new.applyAll ops' := by
      apply ext_pairs
      rw [pairs_applyAll, pairs_applyAll, h]
    rw [heq]
    exact ⟨rfl, rfl, rfl, rfl, rfl⟩
  · intro s id b c hne hb hc ops
    exact not_contains_applyAll hne hb hc ops
  · intro s id encoded
    rw [insert_eq]
  · intro s t
    obtain ⟨hacc, hsum⟩ := countAll_insertAll s t.evidenceList {}
    have hlen := len_insertAll s t.evidenceList
    rw [merge_eq]
    simp only [Nat.zero_add] at hacc hsum
    exact ⟨hsum, by rw [hacc]; exact hlen⟩

end OpSet
end EditChain.Core
