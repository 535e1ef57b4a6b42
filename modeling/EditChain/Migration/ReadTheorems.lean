import EditChain.Core.AdmissionTheorems
import EditChain.Store.SegmentTheorems

/-!
# What a chain says, by its records

Reading a directory yields a corpus that depends on the bytes of its complete records only: which
identities are claimed by which bytes, and how often.
-/

namespace EditChain.Migration

open Core Fallible Store UnitReader
open Std (ExtTreeMap)

variable {Op : Type} [Schema Op] [Checksum]

/-- The identities that records claim, with the claiming bytes. -/
def claims (l : List Bytes) : List (OpId × Bytes) :=
  l.filterMap fun bytes =>
    match (Schema.decodeOp bytes : Except PostcardError Op) with
    | .ok op => some (Schema.id op, bytes)
    | .error _ => none

/-- A corpus holds what some records say. -/
structure Says (l : List Bytes) (chain : CanonicalChain Op) : Prop where
  evidence : chain.evidence.pairs = (claims l).toFinset
  accepted : ∀ id, chain.accepted[id]?.isSome ↔ id ∈ KeyedEvidence.accepted chain.evidence.pairs
  ops : ∀ id op location, chain.accepted[id]? = some (op, location) →
    ∃ bytes, (id, bytes) ∈ chain.evidence.pairs ∧ Schema.decodeOp bytes = .ok op
  records : chain.counts.records = (claims l).length
  duplicates : chain.counts.duplicates + chain.evidence.pairs.card = (claims l).length
  undecodable : chain.counts.undecodable + (claims l).length = l.length

omit [Checksum] in
lemma claims_append (l m : List Bytes) : claims (l ++ m) = claims l ++ claims m :=
  List.filterMap_append

omit [Checksum] in
lemma claims_ok {bytes : Bytes} {op : Op} (h : Schema.decodeOp bytes = .ok op) :
    claims [bytes] = [(Schema.id op, bytes)] := by
  simp [claims, h]

omit [Checksum] in
lemma claims_error {bytes : Bytes} {e : PostcardError}
    (h : (Schema.decodeOp bytes : Except PostcardError Op) = .error e) : claims [bytes] = [] := by
  simp [claims, h]

omit [Checksum] in
lemma mem_claims {l : List Bytes} {id : OpId} {bytes : Bytes} :
    (id, bytes) ∈ claims l ↔ bytes ∈ l ∧ ∃ op, Schema.decodeOp bytes = .ok op ∧ Schema.id op = id := by
  unfold claims
  rw [List.mem_filterMap]
  constructor
  · rintro ⟨b, hb, hsome⟩
    cases hop : (Schema.decodeOp b : Except PostcardError Op) with
    | error e =>
      rw [hop] at hsome
      cases hsome
    | ok op =>
      rw [hop] at hsome
      cases hsome
      exact ⟨hb, op, hop, rfl⟩
  · rintro ⟨hb, op, hop, rfl⟩
    exact ⟨bytes, hb, by rw [hop]⟩

omit [Checksum] in
lemma says_nil : Says [] ({} : CanonicalChain Op) := by
  refine ⟨?_, ?_, ?_, rfl, ?_, rfl⟩
  · rw [OpSet.pairs_new]
    rfl
  · intro id
    rw [OpSet.pairs_new, KeyedEvidence.accepted_empty]
    simp
  · intro id op location h
    simp at h
  · rw [OpSet.pairs_new]
    rfl

omit [Checksum] in
/-- One more record that cannot be decoded. -/
lemma Says.undecodable_append {l : List Bytes} {chain : CanonicalChain Op} (h : Says l chain)
    {bytes : Bytes} {e : PostcardError}
    (he : (Schema.decodeOp bytes : Except PostcardError Op) = .error e) :
    Says (l ++ [bytes]) chain.recordUndecodable := by
  have hclaims : claims (l ++ [bytes]) = claims l := by
    rw [claims_append, claims_error he, List.append_nil]
  refine ⟨?_, h.accepted, h.ops, ?_, ?_, ?_⟩
  · rw [hclaims]
    exact h.evidence
  · rw [hclaims]
    exact h.records
  · rw [hclaims]
    exact h.duplicates
  · rw [hclaims, List.length_append, List.length_singleton]
    have hcount := h.undecodable
    show chain.counts.undecodable + 1 + _ = _
    omega

omit [Checksum] in
/-- One more record that claims an identity. -/
lemma Says.admit {l : List Bytes} {chain : CanonicalChain Op} (h : Says l chain) {bytes : Bytes}
    {op : Op} (hop : Schema.decodeOp bytes = .ok op) (location : Option OpRecordLocation) :
    Says (l ++ [bytes]) (chain.admitOp op bytes location).2 := by
  have hclaims : claims (l ++ [bytes]) = claims l ++ [(Schema.id op, bytes)] := by
    rw [claims_append, claims_ok hop]
  have hlength : (claims (l ++ [bytes])).length = (claims l).length + 1 := by
    rw [hclaims, List.length_append, List.length_singleton]
  have hset : (claims (l ++ [bytes])).toFinset
      = insert (Schema.id op, bytes) chain.evidence.pairs := by
    rw [hclaims, h.evidence]
    ext r
    simp [or_comm]
  have hundecodable := h.undecodable
  have hduplicates := h.duplicates
  have hrecords := h.records
  unfold CanonicalChain.admitOp
  rw [OpSet.insert_eq]
  cases hclass : chain.evidence.classify (Schema.id op) bytes with
  | duplicate =>
    have hin := OpSet.classify_eq_duplicate_iff.mp hclass
    have hpairs : (chain.evidence.retain (Schema.id op) bytes).pairs = chain.evidence.pairs := by
      rw [OpSet.pairs_retain, Finset.insert_eq_of_mem hin]
    refine ⟨?_, ?_, ?_, ?_, ?_, ?_⟩
    · rw [hset]
      exact OpSet.pairs_retain _ _ _
    · simp only [hpairs]
      exact h.accepted
    · simp only [hpairs]
      exact h.ops
    · show chain.counts.records + 1 = _
      omega
    · show chain.counts.duplicates + 1 + (chain.evidence.retain (Schema.id op) bytes).pairs.card = _
      rw [hpairs]
      omega
    · show chain.counts.undecodable + _ = _
      rw [hlength, List.length_append, List.length_singleton]
      omega
  | accepted =>
    have hfresh := OpSet.classify_eq_accepted_iff.mp hclass
    have hnew : (Schema.id op, bytes) ∉ chain.evidence.pairs := by
      intro hin
      exact hfresh (KeyedEvidence.mem_keys.mpr ⟨bytes, hin⟩)
    refine ⟨?_, ?_, ?_, ?_, ?_, ?_⟩
    · rw [hset]
      exact OpSet.pairs_retain _ _ _
    · intro id
      simp only [OpSet.pairs_retain, KeyedEvidence.accepted_insert_of_notMem bytes hfresh,
        Finset.mem_insert, ExtTreeMap.getElem?_insert, Std.compare_eq_iff_eq]
      by_cases hid : Schema.id op = id
      · simp [hid]
      · rw [if_neg hid, h.accepted id]
        constructor
        · exact .inr
        · rintro (heq | hold)
          · exact absurd heq.symm hid
          · exact hold
    · intro id op' location' hsome
      simp only [OpSet.pairs_retain, Finset.mem_insert]
      rw [ExtTreeMap.getElem?_insert] at hsome
      split at hsome
      · next heq =>
        cases hsome
        exact ⟨bytes, .inl (by rw [Std.compare_eq_iff_eq.mp heq]), hop⟩
      · obtain ⟨b, hb, hdecode⟩ := h.ops id op' location' hsome
        exact ⟨b, .inr hb, hdecode⟩
    · show chain.counts.records + 1 = _
      omega
    · show chain.counts.duplicates + (chain.evidence.retain (Schema.id op) bytes).pairs.card = _
      rw [OpSet.pairs_retain, Finset.card_insert_of_notMem hnew]
      omega
    · show chain.counts.undecodable + _ = _
      rw [hlength, List.length_append, List.length_singleton]
      omega
  | conflict =>
    have hnew : (Schema.id op, bytes) ∉ chain.evidence.pairs := by
      intro hin
      rw [OpSet.classify_eq_duplicate_iff.mpr hin] at hclass
      cases hclass
    have hkey : Schema.id op ∈ KeyedEvidence.keys chain.evidence.pairs := by
      by_contra hfresh
      rw [OpSet.classify_eq_accepted_iff.mpr hfresh] at hclass
      cases hclass
    refine ⟨?_, ?_, ?_, ?_, ?_, ?_⟩
    · rw [hset]
      exact OpSet.pairs_retain _ _ _
    · intro id
      simp only [OpSet.pairs_retain, KeyedEvidence.accepted_insert_of_mem hkey hnew,
        Finset.mem_erase, ExtTreeMap.getElem?_erase, Std.compare_eq_iff_eq]
      by_cases hid : Schema.id op = id
      · simp [hid]
      · rw [if_neg hid, h.accepted id]
        exact ⟨fun hold => ⟨fun heq => hid heq.symm, hold⟩, fun hold => hold.2⟩
    · intro id op' location' hsome
      simp only [OpSet.pairs_retain, Finset.mem_insert]
      rw [ExtTreeMap.getElem?_erase] at hsome
      split at hsome
      · cases hsome
      · obtain ⟨b, hb, hdecode⟩ := h.ops id op' location' hsome
        exact ⟨b, .inr hb, hdecode⟩
    · show chain.counts.records + 1 = _
      omega
    · show chain.counts.duplicates + (chain.evidence.retain (Schema.id op) bytes).pairs.card = _
      rw [OpSet.pairs_retain, Finset.card_insert_of_notMem hnew]
      omega
    · show chain.counts.undecodable + _ = _
      rw [hlength, List.length_append, List.length_singleton]
      omega

omit [Checksum] in
lemma Says.scanRecords {l : List Bytes} {chain : CanonicalChain Op} (h : Says l chain)
    (segment : ℕ) (records : List RecordRef) :
    Says (l ++ records.map RecordRef.data) (chain.admitAll segment records) := by
  induction records generalizing l chain with
  | nil =>
    rw [List.map_nil, List.append_nil]
    exact h
  | cons r records ih =>
    have hstep : Says (l ++ [r.data]) (chain.scanRecord segment r) := by
      unfold CanonicalChain.scanRecord
      cases hop : (Schema.decodeOp r.data : Except PostcardError Op) with
      | error e => exact h.undecodable_append hop
      | ok op => exact h.admit hop _
    rw [List.map_cons, List.append_cons]
    exact ih hstep

/-- A corpus of segments says what their complete records say. -/
lemma says_corpus (d : Directory) (k : ℕ) :
    Says ((d.recordsBelow k).map Record.data) (d.corpus k : CanonicalChain Op) := by
  induction k with
  | zero => exact says_nil
  | succ k ih =>
    have hown : (unitRecords (pages.run none (d.bytesAt k)).units).map RecordRef.data
        = (d.recordsOf k).map Record.data := (map_data_itemRecords _).symm
    have hstep := ih.scanRecords k (unitRecords (pages.run none (d.bytesAt k)).units)
    rw [hown] at hstep
    unfold Directory.recordsBelow
    rw [List.range_succ, List.flatMap_append, List.map_append, List.flatMap_singleton]
    exact hstep

omit [Checksum] in
lemma Says.withTails {l : List Bytes} {chain : CanonicalChain Op} (h : Says l chain) (n : ℕ) :
    Says l (chain.withTails n) :=
  ⟨h.evidence, h.accepted, h.ops, h.records, h.duplicates, h.undecodable⟩

/-- A directory whose records can be visited can be read, and says what they say. -/
lemma exists_read {d : Directory} {records : List Record} {stats : LogReadStats}
    (h : SegmentStore.visitRecords d = .ok (records, stats)) :
    ∃ chain : CanonicalChain Op, CanonicalChain.read d = .ok chain
      ∧ Says (records.map Record.data) chain := by
  obtain ⟨hreadable, rfl⟩ := visitRecords_eq_ok h
  unfold SegmentStore.visitRecords at h
  obtain ⟨sequences, hsequences, -⟩ := bind_eq_ok.mp h
  obtain ⟨-, hlimit, -⟩ := segmentSequences_eq_ok hsequences
  have hnamed : d.misnamed = none := by
    unfold Directory.segmentSequences at hsequences
    cases hmisnamed : d.misnamed with
    | none => rfl
    | some error =>
      rw [hmisnamed] at hsequences
      cases hsequences
  exact ⟨_, read_of_readable hreadable hlimit hnamed, (says_corpus d _).withTails _⟩

end EditChain.Migration
