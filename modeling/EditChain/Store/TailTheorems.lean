import EditChain.Core.AdmissionTheorems
import EditChain.Store.ReaderTheorems
import EditChain.Store.Tail

/-!
# Incremental reading

A tail that follows a growing directory holds the corpus of the segments before its frontier, and of
the units of the frontier segment up to its offset. Every poll keeps this, and a drain moves the
frontier to the end. The deltas of polls and drains account for all changes of the accepted set.
-/

namespace EditChain.Store

open Core Fallible UnitReader
open Std (ExtTreeMap ExtTreeSet)

variable {Op : Type}

/-! ## Deltas -/

/-- A delta accounts for the change of the accepted set between two corpora. -/
structure ChainDelta.Accounts (delta : ChainDelta Op) (before after : CanonicalChain Op) : Prop where
  accepted : ∀ id, id ∈ after.accepted
    ↔ (id ∈ before.accepted ∧ id ∉ delta.removed) ∨ id ∈ delta.added
  added : ∀ (id : OpId) op location, delta.added[id]? = some (op, location) →
    after.accepted[id]? = some (op, some location)
  kept : ∀ id : OpId, id ∉ delta.removed → id ∉ delta.added →
    after.accepted[id]? = before.accepted[id]?
  /-- Only identities without evidence are added; retracted ones have some. -/
  fresh : ∀ id ∈ delta.added, id ∉ KeyedEvidence.keys before.evidence.pairs
  seen : ∀ id ∈ delta.removed, id ∈ KeyedEvidence.keys after.evidence.pairs
  retracted : ∀ id ∈ delta.removed, id ∉ delta.added
  evidence : KeyedEvidence.keys before.evidence.pairs ⊆ KeyedEvidence.keys after.evidence.pairs
  /-- Identities with new evidence are added or retracted. -/
  covered : ∀ id ∈ KeyedEvidence.keys after.evidence.pairs,
    id ∈ KeyedEvidence.keys before.evidence.pairs ∨ id ∈ delta.added ∨ id ∈ delta.removed

namespace ChainDelta

lemma mem_foldl_erase {β : Type} (ids : List OpId) (m : ExtTreeMap OpId β) (id : OpId) :
    (ids.foldl (fun m i => m.erase i) m)[id]? = if id ∈ ids then none else m[id]? := by
  induction ids generalizing m with
  | nil => simp
  | cons i ids ih =>
    rw [List.foldl_cons, ih, ExtTreeMap.getElem?_erase]
    by_cases hmem : id ∈ ids
    · simp [hmem]
    · by_cases heq : i = id
      · simp [heq]
      · simp [hmem, heq, Ne.symm heq]

lemma mem_foldl_insert (ids : List OpId) (s : ExtTreeSet OpId) (id : OpId) :
    id ∈ ids.foldl (fun s i => s.insert i) s ↔ id ∈ ids ∨ id ∈ s := by
  induction ids generalizing s with
  | nil => simp
  | cons i ids ih =>
    rw [List.foldl_cons, ih, ExtTreeSet.mem_insert, Std.compare_eq_iff_eq, List.mem_cons]
    tauto

lemma getElem?_foldl_insert_of_notMem {β : Type} {l : List (OpId × β)} {id : OpId}
    (h : id ∉ l.map Prod.fst) (m : ExtTreeMap OpId β) :
    (l.foldl (fun m r => m.insert r.1 r.2) m)[id]? = m[id]? := by
  induction l generalizing m with
  | nil => rfl
  | cons r l ih =>
    simp only [List.map_cons, List.mem_cons, not_or] at h
    rw [List.foldl_cons, ih h.2, ExtTreeMap.getElem?_insert, if_neg (by simpa using Ne.symm h.1)]

lemma getElem?_foldl_insert_of_mem {β : Type} {l : List (OpId × β)} {id : OpId} {v : β}
    (hl : (l.map Prod.fst).Nodup) (h : (id, v) ∈ l) (m : ExtTreeMap OpId β) :
    (l.foldl (fun m r => m.insert r.1 r.2) m)[id]? = some v := by
  induction l generalizing m with
  | nil => cases h
  | cons r l ih =>
    rw [List.map_cons, List.nodup_cons] at hl
    rw [List.foldl_cons]
    rcases List.mem_cons.mp h with rfl | h
    · rw [getElem?_foldl_insert_of_notMem hl.1, ExtTreeMap.getElem?_insert, if_pos (by simp)]
    · exact ih hl.2 h _

/-- Entries of another map replace those of the first. -/
lemma getElem?_foldl_insert {β : Type} (m m' : ExtTreeMap OpId β) (id : OpId) :
    (m'.toList.foldl (fun m r => m.insert r.1 r.2) m)[id]? = m'[id]?.or m[id]? := by
  have hkeys : (m'.toList.map Prod.fst).Nodup := by
    rw [ExtTreeMap.map_fst_toList_eq_keys]
    exact ExtTreeMap.nodup_keys
  cases hv : m'[id]? with
  | some v =>
    exact getElem?_foldl_insert_of_mem hkeys (ExtTreeMap.mem_toList_iff_getElem?_eq_some.mpr hv) m
  | none =>
    refine getElem?_foldl_insert_of_notMem ?_ m
    rw [ExtTreeMap.map_fst_toList_eq_keys, ExtTreeMap.mem_keys,
      ← ExtTreeMap.isSome_getElem?_iff_mem, hv]
    simp

lemma Accounts.refl (chain : CanonicalChain Op) : ({} : ChainDelta Op).Accounts chain chain where
  accepted id := by simp
  added id op location h := by simp at h
  kept _ _ _ := rfl
  fresh id h := by simp at h
  seen id h := by simp at h
  retracted id h := by simp at h
  evidence := subset_rfl
  covered _ := .inl

/-- What is counted as work does not matter. -/
lemma Accounts.of_eq {x y : ChainDelta Op} {before after : CanonicalChain Op}
    (h : x.Accounts before after) (hadded : y.added = x.added) (hremoved : y.removed = x.removed) :
    y.Accounts before after := by
  obtain ⟨added, removed, work⟩ := y
  cases hadded
  cases hremoved
  exact ⟨h.accepted, h.added, h.kept, h.fresh, h.seen, h.retracted, h.evidence, h.covered⟩

/-- Deltas of consecutive polls fold into one that accounts for both. -/
lemma Accounts.fold {x y : ChainDelta Op} {a b c : CanonicalChain Op} (hx : x.Accounts a b)
    (hy : y.Accounts b c) : (Tail.fold x y).Accounts a c := by
  have hremoved : ∀ id, id ∈ (Tail.fold x y).removed ↔ id ∈ y.removed ∨ id ∈ x.removed := by
    intro id
    show id ∈ y.removed.toList.foldl _ x.removed ↔ _
    rw [mem_foldl_insert, ExtTreeSet.mem_toList]
  have hadded : ∀ id : OpId, (Tail.fold x y).added[id]?
      = if id ∈ y.removed then none else y.added[id]?.or x.added[id]? := by
    intro id
    show (y.removed.toList.foldl _ (y.added.toList.foldl _ x.added))[id]? = _
    rw [mem_foldl_erase, getElem?_foldl_insert]
    simp only [ExtTreeSet.mem_toList]
  have hmem : ∀ id, id ∈ (Tail.fold x y).added
      ↔ id ∉ y.removed ∧ (id ∈ y.added ∨ id ∈ x.added) := by
    intro id
    rw [← ExtTreeMap.isSome_getElem?_iff_mem, hadded]
    by_cases hr : id ∈ y.removed
    · simp [hr]
    · simp [hr]
  refine ⟨fun id => ?_, fun id op location h => ?_, fun id hnr hna => ?_, fun id h => ?_,
    fun id h => ?_, fun id h => ?_, hx.evidence.trans hy.evidence, fun id h => ?_⟩
  · rw [hy.accepted, hx.accepted, hremoved, hmem]
    have hdisjoint := hy.retracted id
    tauto
  · rw [hadded] at h
    by_cases hr : id ∈ y.removed
    · simp [hr] at h
    · rw [if_neg hr] at h
      cases hnew : y.added[id]? with
      | some entry =>
        rw [hnew] at h
        cases h
        exact hy.added id op location hnew
      | none =>
        have hna : id ∉ y.added := by
          rw [← ExtTreeMap.isSome_getElem?_iff_mem, hnew]
          simp
        rw [hnew, Option.none_or] at h
        rw [hy.kept id hr hna]
        exact hx.added id op location h
  · rw [hremoved, not_or] at hnr
    rw [hmem, not_and, not_or] at hna
    have hnone := hna hnr.1
    rw [hy.kept id hnr.1 hnone.1, hx.kept id hnr.2 hnone.2]
  · rcases ((hmem id).mp h).2 with h | h
    · exact fun hin => hy.fresh id h (hx.evidence hin)
    · exact hx.fresh id h
  · rcases (hremoved id).mp h with h | h
    · exact hy.seen id h
    · exact hy.evidence (hx.seen id h)
  · rw [hmem]
    rintro ⟨hnot, hin⟩
    rcases (hremoved id).mp h with h | h
    · exact hnot h
    · rcases hin with hin | hin
      · exact hy.fresh id hin (hx.seen id h)
      · exact hx.retracted id h hin
  · rw [hmem, hremoved]
    have hy' := hy.covered id h
    have hx' := hx.covered id
    tauto

lemma Accounts.withTails {delta : ChainDelta Op} {before after : CanonicalChain Op}
    (h : delta.Accounts before after) (n : ℕ) : delta.Accounts before (after.withTails n) :=
  ⟨h.accepted, h.added, h.kept, h.fresh, h.seen, h.retracted, h.evidence, h.covered⟩

end ChainDelta

variable [Schema Op]

/-- Admission of one record, with the delta's note of it. -/
lemma ChainDelta.Accounts.admitOp {delta : ChainDelta Op} {before chain : CanonicalChain Op}
    (h : delta.Accounts before chain) (op : Op) (encoded : Bytes) (location : OpRecordLocation) :
    (Tail.note delta op location (chain.admitOp op encoded (some location)).1).Accounts before
      (chain.admitOp op encoded (some location)).2 := by
  unfold CanonicalChain.admitOp
  rw [OpSet.insert_eq]
  have hkeys : KeyedEvidence.keys (chain.evidence.retain (Schema.id op) encoded).pairs
      = insert (Schema.id op) (KeyedEvidence.keys chain.evidence.pairs) := by
    rw [OpSet.pairs_retain, KeyedEvidence.keys_insert]
  have hgrow : KeyedEvidence.keys chain.evidence.pairs
      ⊆ KeyedEvidence.keys (chain.evidence.retain (Schema.id op) encoded).pairs := by
    rw [hkeys]
    exact Finset.subset_insert _ _
  have hseen : ∀ id ∈ delta.removed, id ∈
      KeyedEvidence.keys (chain.evidence.retain (Schema.id op) encoded).pairs :=
    fun id hid => hgrow (h.seen id hid)
  cases hclass : chain.evidence.classify (Schema.id op) encoded with
  | accepted =>
    have hnew := OpSet.classify_eq_accepted_iff.mp hclass
    refine ⟨fun id => ?_, fun id op' location' => ?_, fun id hnr hna => ?_, fun id hid => ?_, hseen,
      fun id hid => ?_, h.evidence.trans hgrow, fun id hid => ?_⟩
    · simp only [Tail.note, ExtTreeMap.mem_insert, Std.compare_eq_iff_eq, h.accepted]
      tauto
    · simp only [Tail.note, ExtTreeMap.getElem?_insert, Std.compare_eq_iff_eq]
      by_cases heq : Schema.id op = id
      · simp [heq]
      · simpa [heq] using h.added id op' location'
    · simp only [Tail.note, ExtTreeMap.mem_insert, Std.compare_eq_iff_eq, not_or] at hnr hna
      simp only [ExtTreeMap.getElem?_insert, Std.compare_eq_iff_eq, hna.1, if_false]
      exact h.kept id hnr hna.2
    · simp only [Tail.note, ExtTreeMap.mem_insert, Std.compare_eq_iff_eq] at hid
      rcases hid with rfl | hid
      · exact fun hin => hnew (h.evidence hin)
      · exact h.fresh id hid
    · simp only [Tail.note, ExtTreeMap.mem_insert, Std.compare_eq_iff_eq, not_or]
      exact ⟨fun heq => hnew (heq ▸ h.seen id hid), h.retracted id hid⟩
    · simp only [Tail.note, ExtTreeMap.mem_insert, Std.compare_eq_iff_eq]
      rw [hkeys, Finset.mem_insert] at hid
      have hold := h.covered id
      tauto
  | duplicate =>
    refine ⟨h.accepted, h.added, h.kept, h.fresh, hseen, h.retracted, h.evidence.trans hgrow,
      fun id hid => ?_⟩
    rw [hkeys, Finset.mem_insert] at hid
    rcases hid with rfl | hid
    · -- a duplicate has evidence already
      refine h.covered _ ?_
      by_contra hnew
      rw [OpSet.classify_eq_accepted_iff.mpr hnew] at hclass
      cases hclass
    · exact h.covered id hid
  | conflict =>
    refine ⟨fun id => ?_, fun id op' location' => ?_, fun id hnr hna => ?_, fun id hid => ?_,
      fun id hid => ?_, fun id hid => ?_, h.evidence.trans hgrow, fun id hid => ?_⟩
    · simp only [Tail.note, ExtTreeMap.mem_erase, ExtTreeSet.mem_insert, ne_eq,
        Std.compare_eq_iff_eq, h.accepted]
      tauto
    · simp only [Tail.note, ExtTreeMap.getElem?_erase, Std.compare_eq_iff_eq]
      by_cases heq : Schema.id op = id
      · simp [heq]
      · simpa [heq] using h.added id op' location'
    · simp only [Tail.note, ExtTreeSet.mem_insert, ExtTreeMap.mem_erase, ne_eq,
        Std.compare_eq_iff_eq, not_or, not_and] at hnr hna
      simp only [ExtTreeMap.getElem?_erase, Std.compare_eq_iff_eq, hnr.1, if_false]
      exact h.kept id hnr.2 (hna hnr.1)
    · simp only [Tail.note, ExtTreeMap.mem_erase] at hid
      exact h.fresh id hid.2
    · simp only [Tail.note, ExtTreeSet.mem_insert, Std.compare_eq_iff_eq] at hid
      rcases hid with rfl | hid
      · rw [hkeys]
        exact Finset.mem_insert_self _ _
      · exact hseen id hid
    · simp only [Tail.note, ExtTreeSet.mem_insert, ExtTreeMap.mem_erase, ne_eq,
        Std.compare_eq_iff_eq, not_and] at hid ⊢
      intro hne
      exact h.retracted id (hid.resolve_left hne)
    · simp only [Tail.note, ExtTreeMap.mem_erase, ExtTreeSet.mem_insert, ne_eq,
        Std.compare_eq_iff_eq]
      rw [hkeys, Finset.mem_insert] at hid
      have hold := h.covered id
      tauto

variable [Checksum]

namespace Tail

/-! ## Admitting a slice -/

omit [Checksum] in
/-- One record is admitted where the full reader would place it, and noted in the delta. -/
lemma exec_admitOne (d : Directory) (record : RecordRef) (delta : ChainDelta Op)
    (tail : Tail (CanonicalChain Op)) {before : CanonicalChain Op}
    (h : delta.Accounts before tail.chain) :
    ∃ delta' : ChainDelta Op, (admitOne d record delta).exec tail
        = (.ok delta', { tail with
            chain := tail.chain.scanRecord tail.segment (record.shift tail.offset) })
      ∧ delta'.Accounts before (tail.chain.scanRecord tail.segment (record.shift tail.offset)) := by
  unfold admitOne CanonicalChain.scanRecord
  rw [show (record.shift tail.offset).data = record.data from rfl]
  cases hdecode : Schema.decodeOp record.data with
  | error e =>
    refine ⟨_, rfl, ?_⟩
    exact ⟨h.accepted, h.added, h.kept, h.fresh, h.seen, h.retracted, h.evidence, h.covered⟩
  | ok op =>
    refine ⟨_, rfl, ?_⟩
    refine ChainDelta.Accounts.admitOp (h.of_eq ?_ ?_) op record.data _ <;> rfl

omit [Checksum] in
/-- Records are admitted in order. -/
lemma exec_admitRecords (d : Directory) (records : List RecordRef) (delta : ChainDelta Op)
    (tail : Tail (CanonicalChain Op)) {before : CanonicalChain Op}
    (h : delta.Accounts before tail.chain) :
    ∃ delta' : ChainDelta Op, (admitRecords d records delta).exec tail
        = (.ok delta', { tail with
            chain := tail.chain.admitAll tail.segment (records.map (·.shift tail.offset)) })
      ∧ delta'.Accounts before
          (tail.chain.admitAll tail.segment (records.map (·.shift tail.offset))) := by
  induction records generalizing delta tail with
  | nil => exact ⟨delta, rfl, h⟩
  | cons record records ih =>
    obtain ⟨delta₁, hexec₁, h₁⟩ := exec_admitOne d record delta tail h
    obtain ⟨delta₂, hexec₂, h₂⟩ := ih delta₁ { tail with
      chain := tail.chain.scanRecord tail.segment (record.shift tail.offset) } h₁
    refine ⟨delta₂, ?_, h₂⟩
    unfold admitRecords
    rw [exec_bind_of_ok hexec₁]
    exact hexec₂

omit [Checksum] in
lemma completeRecords_append (items : List ScanItem) (rest : List (Except ScanError ScanItem)) :
    completeRecords (items.map .ok ++ rest) = (do
      let records ← completeRecords rest
      return recordRefs items ++ records) := by
  induction items with
  | nil =>
    show completeRecords rest = _
    cases completeRecords rest <;> rfl
  | cons item items ih =>
    cases item with
    | page sequence offset =>
      simp only [List.map_cons, List.cons_append, completeRecords, recordRefs, ih]
    | record r =>
      simp only [List.map_cons, List.cons_append, completeRecords, recordRefs, ih]
      cases completeRecords rest <;> rfl

/-- Scanning a slice with valid framing. -/
lemma exec_scan (d : Directory) (bytes : Bytes) (delta : ChainDelta Op)
    (tail : Tail (CanonicalChain Op)) {before : CanonicalChain Op}
    (h : delta.Accounts before tail.chain)
    (hgood : ∀ e, (pages.run tail.page bytes).ending ≠ .bad e) :
    ∃ delta' : ChainDelta Op, (scan d bytes delta).exec tail
        = (.ok (decide ((pages.run tail.page bytes).consumed < bytes.length), delta'),
          { tail with
            chain := tail.chain.admitAll tail.segment
              ((unitRecords (pages.run tail.page bytes).units).map (·.shift tail.offset))
            offset := tail.offset + (pages.run tail.page bytes).consumed
            page := (pages.run tail.page bytes).state })
      ∧ delta'.Accounts before (tail.chain.admitAll tail.segment
          ((unitRecords (pages.run tail.page bytes).units).map (·.shift tail.offset))) := by
  obtain ⟨delta', hexec, hdelta⟩ :=
    exec_admitRecords d (unitRecords (pages.run tail.page bytes).units) delta tail h
  refine ⟨delta', ?_, hdelta⟩
  have hrecords : completeRecords ((PageScanner.resume bytes tail.page).items.1)
      = .ok (unitRecords (pages.run tail.page bytes).units) := by
    rw [congrArg Prod.fst (PageScanner.items_resume bytes tail.page), completeRecords_append]
    cases hending : (pages.run tail.page bytes).ending with
    | clean => simp [PageScanner.endError, completeRecords, unitRecords, bind, Except.bind, pure,
        Except.pure]
    | more => simp [PageScanner.endError, completeRecords, unitRecords, bind, Except.bind, pure,
        Except.pure]
    | bad e => exact absurd hending (hgood e)
  unfold scan
  rw [exec_bind_of_ok (exec_get tail)]
  simp only
  rw [exec_bind, exec_lift, hrecords]
  simp only
  rw [exec_bind_of_ok hexec, PageScanner.items_resume]
  rfl

/-- The count of incomplete tails when the flag of the frontier changes. -/
def retag (tails : ℕ) (old new : Bool) : ℕ :=
  if old ≠ new then if new then tails + 1 else tails - 1 else tails

omit [Checksum] in
lemma recordTailChange_eq (chain : CanonicalChain Op) (old new : Bool) :
    (if old ≠ new then TailCorpus.recordTailChange new chain else chain)
      = chain.withTails (retag chain.counts.incompleteTails old new) := by
  unfold retag
  by_cases hchange : old ≠ new
  · rw [if_pos hchange, if_pos hchange]
    rfl
  · rw [if_neg hchange, if_neg hchange]
    rfl

/-- The flag of a frontier whose slice has been scanned. -/
def cutFlag (tail : Tail (CanonicalChain Op)) (metadata : FileStamp) (bytes : Bytes) : Bool :=
  decide ((pages.run tail.page bytes).consumed < bytes.length)
    && decide (metadata.length ≤ tail.offset + bytes.length)

/-- The tail after a slice has been scanned and admitted. -/
def admitted (tail : Tail (CanonicalChain Op)) (metadata : FileStamp) (bytes : Bytes) :
    Tail (CanonicalChain Op) :=
  let chain := tail.chain.admitAll tail.segment
    ((unitRecords (pages.run tail.page bytes).units).map (·.shift tail.offset))
  { tail with
    chain := chain.withTails (retag chain.counts.incompleteTails tail.incomplete
      (tail.cutFlag metadata bytes))
    offset := tail.offset + (pages.run tail.page bytes).consumed
    page := (pages.run tail.page bytes).state
    incomplete := tail.cutFlag metadata bytes
    observed := some metadata }

/-- Admitting a slice with valid framing. -/
lemma exec_admitFrontier (d : Directory) (metadata : FileStamp) (bytes : Bytes)
    (delta : ChainDelta Op) (tail : Tail (CanonicalChain Op)) {before : CanonicalChain Op}
    (h : delta.Accounts before tail.chain)
    (hgood : ∀ e, (pages.run tail.page bytes).ending ≠ .bad e) :
    ∃ delta' : ChainDelta Op, (admitFrontier d metadata bytes delta).exec tail
        = (.ok delta', tail.admitted metadata bytes)
      ∧ delta'.Accounts before (tail.admitted metadata bytes).chain := by
  obtain ⟨delta', hexec, hdelta⟩ := exec_scan d bytes
    { delta with work := { delta.work with bytesRead := delta.work.bytesRead + bytes.length } } tail
    (h.of_eq rfl rfl) hgood
  refine ⟨delta', ?_, hdelta.withTails _⟩
  unfold admitFrontier
  simp only
  rw [exec_bind_of_ok (exec_get tail), exec_bind_of_ok hexec]
  simp only
  rw [exec_bind_of_ok (exec_modify _ _), exec_pure]
  rw [recordTailChange_eq]
  rfl

/-- A slice with invalid framing is rejected before anything is admitted. -/
lemma exec_admitFrontier_of_bad (d : Directory) (metadata : FileStamp) (bytes : Bytes)
    (delta : ChainDelta Op) (tail : Tail (CanonicalChain Op)) {e : ScanErrorKind}
    (hbad : (pages.run tail.page bytes).ending = .bad e) :
    ∃ error, (admitFrontier d metadata bytes delta).exec tail = (.error error, tail) := by
  have hne : e ≠ .incompleteTail := by
    intro heq
    rw [heq] at hbad
    exact run_ne_bad_incompleteTail tail.page bytes hbad
  have hrecords : ∃ error, completeRecords ((PageScanner.resume bytes tail.page).items.1)
      = .error error := by
    rw [congrArg Prod.fst (PageScanner.items_resume bytes tail.page), completeRecords_append, hbad]
    refine ⟨invalid (ScanError.display ⟨(pages.run tail.page bytes).consumed, e⟩), ?_⟩
    simp only [PageScanner.endError, completeRecords, if_neg hne, bind, Except.bind]
  obtain ⟨error, hrecords⟩ := hrecords
  refine ⟨error, ?_⟩
  unfold admitFrontier
  simp only
  rw [exec_bind_of_ok (exec_get tail)]
  apply exec_bind_of_error
  unfold scan
  rw [exec_bind_of_ok (exec_get tail)]
  simp only
  rw [exec_bind, exec_lift, hrecords]

section

variable {C : Type} [TailCorpus Op C] {d : Directory} {fuel : ℕ} {delta delta' : ChainDelta Op}
  {tail tail' : Tail C}

omit [TailCorpus Op C] [Schema Op] [Checksum] in
lemma nextSegment_eq_ok {next : ℕ} (h : tail.nextSegment = .ok next) : next = tail.segment + 1 := by
  unfold nextSegment at h
  split at h
  · cases h
    rfl
  · cases h

/-- A successful poll, after its first look at the frontier. -/
lemma pollLoop_eq_ok (hexec : (pollLoop d (fuel + 1) delta).exec tail = (.ok delta', tail')) :
    (tail.openFrontier d = .ok none ∧ delta' = delta ∧ tail' = tail)
      ∨ ∃ metadata seen delta₁, tail.openFrontier d = .ok (some metadata)
        ∧ (admitFrontier d metadata (tail.readFrontier d) delta).exec tail = (.ok delta₁, seen)
        ∧ ((tail.offset < seen.offset ∧ delta' = delta₁ ∧ tail' = seen)
          ∨ ∃ next, ¬ tail.offset < seen.offset ∧ seen.nextSegment = .ok next
            ∧ ((d.segments[next]? = none ∧ delta' = delta₁ ∧ tail' = seen)
              ∨ d.segments[next]? ≠ none
                ∧ (pollLoop d fuel delta₁).exec (seen.advance next) = (.ok delta', tail'))) := by
  unfold pollLoop at hexec
  rw [exec_bind_of_ok (exec_get tail)] at hexec
  obtain ⟨found, opened, hopen, hexec⟩ := exec_bind_eq_ok.mp hexec
  obtain ⟨hfound, rfl⟩ := Prod.mk.inj hopen
  cases found with
  | none =>
    cases hexec
    exact .inl ⟨hfound, rfl, rfl⟩
  | some metadata =>
    obtain ⟨delta₁, seen, hfirst, hexec⟩ := exec_bind_eq_ok.mp hexec
    refine .inr ⟨metadata, seen, delta₁, hfound, hfirst, ?_⟩
    rw [exec_bind_of_ok (exec_get seen)] at hexec
    split at hexec
    · next hmoved =>
      cases hexec
      exact .inl ⟨hmoved, rfl, rfl⟩
    · next hstays =>
      obtain ⟨next, kept, hnext, hexec⟩ := exec_bind_eq_ok.mp hexec
      obtain ⟨hnumber, rfl⟩ := Prod.mk.inj hnext
      refine .inr ⟨next, hstays, hnumber, ?_⟩
      split at hexec
      · next hlast =>
        cases hexec
        exact .inl ⟨hlast, rfl, rfl⟩
      · next hmore =>
        rw [exec_bind_of_ok (exec_set _ seen)] at hexec
        exact .inr ⟨hmore, hexec⟩

/-- A successful drain, after its first poll. -/
lemma drainLoop_eq_ok {result : ChainDelta Op}
    (hexec : (drainLoop d (fuel + 1) result).exec tail = (.ok delta', tail')) :
    ∃ delta polled, (poll d).exec tail = (.ok delta, polled)
      ∧ (((tail.segment, tail.offset) = (polled.segment, polled.offset)
          ∧ delta' = fold result delta ∧ tail' = polled)
        ∨ (tail.segment, tail.offset) ≠ (polled.segment, polled.offset)
          ∧ (drainLoop d fuel (fold result delta)).exec polled = (.ok delta', tail')) := by
  unfold drainLoop at hexec
  rw [exec_bind_of_ok (exec_get tail)] at hexec
  obtain ⟨delta, polled, hpoll, hexec⟩ := exec_bind_eq_ok.mp hexec
  refine ⟨delta, polled, hpoll, ?_⟩
  rw [exec_bind_of_ok (exec_get polled)] at hexec
  split at hexec
  · next hsame =>
    cases hexec
    exact .inl ⟨hsame, rfl, rfl⟩
  · next hmoved => exact .inr ⟨hmoved, hexec⟩

end

/-- A successful look at the frontier is accounted for. -/
lemma admitFrontier_accounts {d : Directory} {metadata : FileStamp} {bytes : Bytes}
    {delta delta' : ChainDelta Op} {tail tail' : Tail (CanonicalChain Op)}
    {before : CanonicalChain Op} (h : delta.Accounts before tail.chain)
    (hexec : (admitFrontier d metadata bytes delta).exec tail = (.ok delta', tail')) :
    delta'.Accounts before tail'.chain := by
  by_cases hbad : ∃ e, (pages.run tail.page bytes).ending = .bad e
  · obtain ⟨e, hbad⟩ := hbad
    obtain ⟨error, herror⟩ := exec_admitFrontier_of_bad d metadata bytes delta tail hbad
    rw [herror] at hexec
    cases hexec
  · obtain ⟨delta₁, hexec₁, hdelta₁⟩ := exec_admitFrontier d metadata bytes delta tail h
      (fun e he => hbad ⟨e, he⟩)
    rw [hexec₁] at hexec
    cases hexec
    exact hdelta₁

/-- A successful poll is accounted for, whatever the directory. -/
lemma pollLoop_accounts {d : Directory} (fuel : ℕ) {delta delta' : ChainDelta Op}
    {tail tail' : Tail (CanonicalChain Op)} {before : CanonicalChain Op}
    (h : delta.Accounts before tail.chain)
    (hexec : (pollLoop d fuel delta).exec tail = (.ok delta', tail')) :
    delta'.Accounts before tail'.chain := by
  induction fuel generalizing delta tail with
  | zero =>
    cases hexec
    exact h
  | succ fuel ih =>
    rcases pollLoop_eq_ok hexec with ⟨-, rfl, rfl⟩ | ⟨metadata, seen, delta₁, -, hfirst, hrest⟩
    · exact h
    · have hseen := admitFrontier_accounts h hfirst
      rcases hrest with ⟨-, rfl, rfl⟩ | ⟨next, -, -, ⟨-, rfl, rfl⟩ | ⟨-, hexec⟩⟩
      · exact hseen
      · exact hseen
      · apply ih _ hexec
        exact hseen

/-- The loop of a drain folds the deltas of its polls. -/
lemma drainLoop_accounts {d : Directory} (fuel : ℕ) {result delta : ChainDelta Op}
    {tail tail' : Tail (CanonicalChain Op)} {before : CanonicalChain Op}
    (h : result.Accounts before tail.chain)
    (hexec : (drainLoop d fuel result).exec tail = (.ok delta, tail')) :
    delta.Accounts before tail'.chain := by
  induction fuel generalizing result tail with
  | zero =>
    cases hexec
    exact h
  | succ fuel ih =>
    obtain ⟨delta₁, polled, hpoll, hrest⟩ := drainLoop_eq_ok hexec
    have hpolled := pollLoop_accounts _ (ChainDelta.Accounts.refl tail.chain) hpoll
    rcases hrest with ⟨-, rfl, rfl⟩ | ⟨-, hexec⟩
    · exact h.fold hpolled
    · exact ih (h.fold hpolled) hexec

end Tail

/-! ## Stamps -/

/-- A stamp of an earlier state of a file. -/
structure FileStamp.Saw (stamp : FileStamp) (file : SegmentFile) : Prop where
  identity : file.identity = stamp.identity
  length : stamp.length ≤ file.bytes.length
  modified : file.bytes.length = stamp.length → file.modified = stamp.modified

omit [Checksum] in
lemma FileStamp.saw_read (file : SegmentFile) : (FileStamp.read file).Saw file :=
  ⟨rfl, le_rfl, fun _ => rfl⟩

omit [Checksum] in
lemma FileStamp.Saw.grown {stamp : FileStamp} {file file' : SegmentFile} (h : stamp.Saw file)
    (hgrown : file.Grown file') : stamp.Saw file' := by
  have hle := hgrown.bytes.length_le
  have hstamp := h.length
  refine ⟨hgrown.identity.trans h.identity, by omega, fun heq => ?_⟩
  rw [hgrown.modified (by omega), h.modified (by omega)]

/-! ## Following a directory -/

namespace Tail

open Directory

/-- The tail holds the corpus of the segments before its frontier and of the units of the frontier
segment up to its offset, with the given count of incomplete tails. -/
structure Follows (d : Directory) (tail : Tail (CanonicalChain Op)) (tails : ℕ) : Prop where
  reached : 0 < tail.segment → d.segments[tail.segment]? ≠ none
  observed : ∀ stamp, tail.observed = some stamp →
    ∃ file, d.segments[tail.segment]? = some file ∧ stamp.Saw file
  unread : tail.observed = none → tail.incomplete = false
  corpus : ∃ units, pages.Boundary none (d.bytesAt tail.segment) tail.offset units tail.page
    ∧ tail.chain
      = ((d.corpus tail.segment).admitAll tail.segment (unitRecords units)).withTails tails

/-- Nothing has been read yet. -/
lemma follows_empty (d : Directory) (root : String) :
    Follows d (Tail.empty root : Tail (CanonicalChain Op)) 0 :=
  ⟨fun h => absurd h (lt_irrefl 0), fun stamp h => (by cases h), fun _ => rfl,
    [], Boundary.zero pages none _, rfl⟩

/-- The corpus of the segments before an existing one does not change. -/
lemma corpus_of_grows {d d' : Directory} (h : d.Grows d') {n : ℕ}
    (hn : 0 < n → d.segments[n]? ≠ none) :
    (d'.corpus n : CanonicalChain Op) = d.corpus n := by
  have key : ∀ m ≤ n, (d'.corpus m : CanonicalChain Op) = d.corpus m := by
    intro m hm
    induction m with
    | zero => rfl
    | succ m ih =>
      unfold Directory.corpus
      rw [ih (by omega), h.bytesAt_eq (by omega : m < n) (hn (by omega))]
  exact key n le_rfl

/-- Nor do the bytes beyond their last complete items. -/
lemma countBeyond_of_grows {d d' : Directory} (h : d.Grows d') {n : ℕ}
    (hn : 0 < n → d.segments[n]? ≠ none) (p : ℕ → Bool) :
    d'.countBeyond p n = d.countBeyond p n := by
  have key : ∀ m ≤ n, d'.countBeyond p m = d.countBeyond p m := by
    intro m hm
    induction m with
    | zero => rfl
    | succ m ih =>
      unfold Directory.countBeyond
      rw [ih (by omega), h.bytesAt_eq (by omega : m < n) (hn (by omega))]
  exact key n le_rfl

/-- A tail goes on following a directory that grows. -/
lemma Follows.grows {d d' : Directory} {tail : Tail (CanonicalChain Op)} {tails : ℕ}
    (h : Follows d tail tails) (hgrows : d.Grows d') : Follows d' tail tails := by
  obtain ⟨units, hboundary, hchain⟩ := h.corpus
  refine ⟨fun hpos => ?_, fun stamp hstamp => ?_, h.unread, units, ?_, ?_⟩
  · obtain ⟨file, hfile⟩ := Option.ne_none_iff_exists'.mp (h.reached hpos)
    obtain ⟨file', hfile', -⟩ := hgrows.kept tail.segment file hfile
    simp [hfile']
  · obtain ⟨file, hfile, hsaw⟩ := h.observed stamp hstamp
    obtain ⟨file', hfile', hgrown⟩ := hgrows.kept tail.segment file hfile
    exact ⟨file', hfile', hsaw.grown hgrown⟩
  · obtain ⟨y, hy⟩ := hgrows.bytesAt tail.segment
    rw [← hy]
    exact hboundary.append y
  · rw [corpus_of_grows hgrows h.reached]
    exact hchain

omit [Schema Op] [Checksum] in
/-- A stamp that is still valid passes the frontier check. -/
lemma validateFrontier_of_saw {C : Type} {d : Directory} {tail : Tail C} {file : SegmentFile} (h : ∀ stamp, tail.observed = some stamp → stamp.Saw file) :
    tail.validateFrontier d (FileStamp.read file) = .ok () := by
  unfold validateFrontier
  cases hobserved : tail.observed with
  | none => rfl
  | some previous =>
    obtain ⟨hidentity, hlength, hmodified⟩ := h previous hobserved
    have hstable : ¬ ((FileStamp.read file).identity = previous.identity
        ∧ (FileStamp.read file).length = previous.length
        ∧ (FileStamp.read file).modified ≠ previous.modified) :=
      fun hchanged => hchanged.2.2 (hmodified hchanged.2.1)
    simp only
    rw [if_neg hstable]
    unfold FileStamp.validateSuccessor
    rw [if_neg]
    rintro (hne | hlt | ⟨heq, hne⟩)
    · exact hne hidentity
    · exact absurd hlength (not_le.mpr hlt)
    · exact hne (hmodified heq)

/-- Opening the frontier finds the segment if it is there, and never fails. -/
lemma Follows.openFrontier {d : Directory} {tail : Tail (CanonicalChain Op)} {tails : ℕ}
    (h : Follows d tail tails) :
    tail.openFrontier d = .ok (d.segments[tail.segment]?.map FileStamp.read) := by
  unfold Tail.openFrontier
  cases hfile : d.segments[tail.segment]? with
  | none =>
    have hnone : tail.observed = none := by
      by_contra hne
      obtain ⟨stamp, hstamp⟩ := Option.ne_none_iff_exists'.mp hne
      obtain ⟨file, hsome, -⟩ := h.observed stamp hstamp
      rw [hfile] at hsome
      cases hsome
    simp [hnone]
  | some file =>
    have hvalid : tail.validateFrontier d (FileStamp.read file) = .ok () := by
      apply validateFrontier_of_saw
      intro stamp hstamp
      obtain ⟨file', hfile', hsaw⟩ := h.observed stamp hstamp
      rw [hfile] at hfile'
      cases hfile'
      exact hsaw
    simp only [hvalid, Option.map_some]

/-- The rest of the frontier segment is framed validly, and so is every part of it. -/
lemma Follows.rest_sound {d : Directory} {tail : Tail (CanonicalChain Op)} {tails k : ℕ}
    (h : Follows d tail tails) (hd : d.Readable k) {bytes : Bytes}
    (hpart : bytes <+: (d.bytesAt tail.segment).drop tail.offset) (e : ScanErrorKind) :
    (pages.run tail.page bytes).ending ≠ .bad e := by
  intro hbad
  obtain ⟨units, hboundary, -⟩ := h.corpus
  obtain ⟨y, hy⟩ := hpart
  apply hd.sound tail.segment e
  rw [hboundary.run_eq, ← hy, run_append_of_bad tail.page bytes y hbad]
  exact hbad

/-- Admitting a part of the rest of the frontier segment. -/
lemma Follows.admitted {d : Directory} {tail : Tail (CanonicalChain Op)} {tails : ℕ}
    (h : Follows d tail tails) {file : SegmentFile} (hfile : d.segments[tail.segment]? = some file)
    {metadata : FileStamp} (hsaw : metadata.Saw file) {bytes : Bytes}
    (hpart : bytes <+: (d.bytesAt tail.segment).drop tail.offset) :
    Follows d (tail.admitted metadata bytes)
      (retag tails tail.incomplete (tail.cutFlag metadata bytes)) := by
  obtain ⟨units, hboundary, hchain⟩ := h.corpus
  refine ⟨h.reached, fun stamp hstamp => ?_, fun hnone => (by cases hnone), _,
    hboundary.advance hpart, ?_⟩
  · cases hstamp
    exact ⟨file, hfile, hsaw⟩
  · have hrecords : tail.chain.admitAll tail.segment
        ((unitRecords (pages.run tail.page bytes).units).map (·.shift tail.offset))
        = ((d.corpus tail.segment).admitAll tail.segment
            (unitRecords (units ++ ((pages.run tail.page bytes).shift tail.offset).units))).withTails
            tails := by
      rw [hchain, CanonicalChain.admitAll_withTails, unitRecords_append,
        CanonicalChain.admitAll_append]
      congr 2
      exact (unitRecords_shift tail.offset _).symm
    unfold Tail.admitted
    simp only
    rw [hrecords]
    rfl

/-! ## Moving on -/

/-- No complete unit lies beyond the offset. -/
def Idle (d : Directory) (tail : Tail (CanonicalChain Op)) : Prop :=
  (pages.run tail.page ((d.bytesAt tail.segment).drop tail.offset)).consumed = 0

/-- Where nothing is left to read, the frontier segment has been read like any other. -/
lemma Follows.chain_of_idle {d : Directory} {tail : Tail (CanonicalChain Op)} {tails : ℕ}
    (h : Follows d tail tails) (hidle : Idle d tail) :
    tail.chain = (d.corpus (tail.segment + 1)).withTails tails
      ∧ bytesBeyond (d.bytesAt tail.segment) = (d.bytesAt tail.segment).length - tail.offset := by
  obtain ⟨units, hboundary, hchain⟩ := h.corpus
  have hrest := (of_consumed_eq_zero hidle).1
  have hrun := hboundary.run_eq
  have hunits : (pages.run none (d.bytesAt tail.segment)).units = units := by
    rw [hrun]
    simp [Scan.prepend, Scan.shift, hrest]
  have hconsumed : (pages.run none (d.bytesAt tail.segment)).consumed = tail.offset := by
    rw [hrun]
    show tail.offset + (pages.run tail.page _).consumed = tail.offset
    rw [hidle, Nat.add_zero]
  refine ⟨?_, ?_⟩
  · rw [hchain, Directory.corpus, hunits]
  · unfold bytesBeyond
    rw [consumed_new, hconsumed]

/-- Leaving a segment in which nothing is left to read. -/
lemma Follows.advance {d : Directory} {tail : Tail (CanonicalChain Op)} {tails : ℕ}
    (h : Follows d tail tails) (hidle : Idle d tail)
    (hnext : d.segments[tail.segment + 1]? ≠ none) :
    Follows d (tail.advance (tail.segment + 1)) tails :=
  ⟨fun _ => hnext, fun stamp hstamp => (by cases hstamp), fun _ => rfl, [],
    Boundary.zero pages none _, (h.chain_of_idle hidle).1⟩

/-- A cut item within reach of one slice. -/
def short (beyond : ℕ) : Bool := 0 < beyond ∧ beyond ≤ maxFrameBytes

/-- The count of incomplete tails of a reader that looks at one slice of each segment's end. -/
def tally (d : Directory) (tail : Tail (CanonicalChain Op)) : ℕ :=
  d.countBeyond short tail.segment + if tail.incomplete then 1 else 0

omit [Schema Op] [Checksum] in
lemma retag_flag (n : ℕ) (old new : Bool) :
    retag (n + if old then 1 else 0) old new = n + if new then 1 else 0 := by
  cases old <;> cases new <;> rfl

/-- What one look at the frontier segment does. -/
lemma Follows.visit {d : Directory} {tail : Tail (CanonicalChain Op)} {tails : ℕ}
    (h : Follows d tail tails) {file : SegmentFile}
    (hfile : d.segments[tail.segment]? = some file) :
    let seen := tail.admitted (FileStamp.read file) (tail.readFrontier d)
    ∃ tails', Follows d seen tails' ∧ (tails = tally d tail → tails' = tally d seen)
      ∧ (seen.offset = tail.offset →
        Idle d seen ∧ seen.incomplete = short (bytesBeyond (d.bytesAt tail.segment))) := by
  have hbytes := bytesAt_of_some hfile
  have hslice : tail.readFrontier d
      = ((d.bytesAt tail.segment).drop tail.offset).take maxFrameBytes := by
    unfold Tail.readFrontier
    rw [hfile, hbytes]
  have hpart : tail.readFrontier d <+: (d.bytesAt tail.segment).drop tail.offset := by
    rw [hslice]
    exact List.take_prefix _ _
  have hseen := h.admitted hfile (FileStamp.saw_read file) hpart
  refine ⟨_, hseen, ?_, ?_⟩
  · intro htally
    rw [htally]
    exact retag_flag _ _ _
  · intro hoffset
    have hzero : (pages.run tail.page (tail.readFrontier d)).consumed = 0 := by
      have hsum : tail.offset + (pages.run tail.page (tail.readFrontier d)).consumed
          = tail.offset := hoffset
      omega
    -- the slice speaks for the rest of the segment
    have hwhole : pages.run tail.page ((d.bytesAt tail.segment).drop tail.offset)
        = pages.run tail.page (tail.readFrontier d) := by
      rw [hslice]
      apply run_take_of_idle pages_local (by decide)
      rw [← hslice]
      exact hzero
    have hstate := (of_consumed_eq_zero hzero).2
    have hidle : Idle d (tail.admitted (FileStamp.read file) (tail.readFrontier d)) := by
      show (pages.run (pages.run tail.page (tail.readFrontier d)).state
        ((d.bytesAt tail.segment).drop (tail.offset + _))).consumed = 0
      rw [hzero, hstate, Nat.add_zero, hwhole, hzero]
    refine ⟨hidle, ?_⟩
    have hbeyond := (hseen.chain_of_idle hidle).2
    rw [hoffset] at hbeyond
    have hle : tail.offset ≤ (d.bytesAt tail.segment).length := h.corpus.choose_spec.1.1
    have hlen : (tail.readFrontier d).length
        = min maxFrameBytes ((d.bytesAt tail.segment).length - tail.offset) := by
      rw [hslice, List.length_take, List.length_drop]
    have hsegment : (tail.admitted (FileStamp.read file) (tail.readFrontier d)).segment
        = tail.segment := rfl
    rw [hsegment] at hbeyond
    have hlimit : 0 < maxFrameBytes := by decide
    show tail.cutFlag (FileStamp.read file) (tail.readFrontier d) = _
    unfold cutFlag short
    rw [hzero, hlen, hbeyond]
    show (decide _ && decide (file.bytes.length ≤ _)) = _
    rw [← hbytes, ← Bool.decide_and]
    apply decide_eq_decide.mpr
    omega

/-! ## Polling and draining -/

/-- The room taken by the first `n` segments. -/
def span (d : Directory) : ℕ → ℕ
  | 0 => 0
  | n + 1 => span d n + (d.bytesAt n).length + 1

/-- How far the frontier has come. -/
def position (d : Directory) (tail : Tail (CanonicalChain Op)) : ℕ :=
  span d tail.segment + tail.offset

/-- The tail holds the corpus of all `k` segments. -/
def Done (d : Directory) (k : ℕ) (tail : Tail (CanonicalChain Op)) (tails : ℕ) : Prop :=
  tail.chain = (d.corpus k).withTails tails
    ∧ (tails = tally d tail → tails = d.countBeyond short k)

/-- What reading on does: the tail keeps following, it moves on or stays, and it has either moved on
successfully or reached the end. -/
structure Advanced (d : Directory) (k : ℕ) (tail : Tail (CanonicalChain Op)) (tails : ℕ)
    (r : Except IoError (ChainDelta Op)) (tail' : Tail (CanonicalChain Op)) (tails' : ℕ) : Prop where
  follows : Follows d tail' tails'
  counted : tails = tally d tail → tails' = tally d tail'
  moved : (tail'.segment = tail.segment ∧ tail'.offset = tail.offset)
    ∨ position d tail < position d tail'
  done : (∃ delta, r = .ok delta) ∧ position d tail < position d tail' ∨ Done d k tail' tails'

/-- A tail whose segment is not there follows an empty directory. -/
lemma Follows.done_of_none {d : Directory} {tail : Tail (CanonicalChain Op)} {tails k : ℕ}
    (h : Follows d tail tails) (hd : d.Readable k) (hnone : d.segments[tail.segment]? = none) :
    Done d k tail tails := by
  have hsegment : tail.segment = 0 := by
    by_contra hne
    exact h.reached (Nat.pos_of_ne_zero hne) hnone
  have hk : k = 0 := by
    by_contra hne
    have hzero := (hd.dense 0).mpr (Nat.pos_of_ne_zero hne)
    rw [hsegment] at hnone
    rw [hnone] at hzero
    cases hzero
  have hobserved : tail.observed = none := by
    by_contra hne
    obtain ⟨stamp, hstamp⟩ := Option.ne_none_iff_exists'.mp hne
    obtain ⟨file, hfile, -⟩ := h.observed stamp hstamp
    rw [hnone] at hfile
    cases hfile
  obtain ⟨units, hboundary, hchain⟩ := h.corpus
  have hunits : units = [] := by
    have hempty := hboundary.2
    rw [bytesAt_of_none hnone, List.take_nil, run_nil] at hempty
    exact (congrArg Scan.units hempty).symm
  refine ⟨?_, ?_⟩
  · rw [hchain, hunits, hsegment, hk]
    rfl
  · intro htally
    rw [htally, tally, hsegment, h.unread hobserved, hk]
    rfl

/-- A tail that finds nothing more in the last segment is done. -/
lemma Follows.done_of_idle {d : Directory} {tail : Tail (CanonicalChain Op)} {tails k : ℕ}
    (h : Follows d tail tails) (hidle : Idle d tail) (hlast : tail.segment + 1 = k)
    (hflag : tail.incomplete = short (bytesBeyond (d.bytesAt tail.segment))) :
    Done d k tail tails := by
  refine ⟨?_, ?_⟩
  · rw [← hlast]
    exact (h.chain_of_idle hidle).1
  · intro htally
    rw [htally, tally, hflag, ← hlast]
    rfl

/-- The frontier moves forward when a segment is left. -/
lemma Follows.position_advance {d : Directory} {tail : Tail (CanonicalChain Op)} {tails : ℕ}
    (h : Follows d tail tails) :
    position d tail < position d (tail.advance (tail.segment + 1)) := by
  have hle : tail.offset ≤ (d.bytesAt tail.segment).length := h.corpus.choose_spec.1.1
  show span d tail.segment + tail.offset
    < span d tail.segment + (d.bytesAt tail.segment).length + 1 + 0
  omega

/-- The loop of a poll, given a turn for each segment from the frontier on. -/
lemma pollLoop_advanced {d : Directory} {k : ℕ} (hd : d.Readable k) (hk : k ≤ sequenceLimit)
    (fuel : ℕ)
    (delta : ChainDelta Op) {before : CanonicalChain Op} {tail : Tail (CanonicalChain Op)}
    {tails : ℕ} (h : Follows d tail tails) (hdelta : delta.Accounts before tail.chain)
    (hfuel : k < tail.segment + fuel + 1) (hpos : 0 < fuel) :
    ∃ r tail' tails', (pollLoop d fuel delta).exec tail = (r, tail')
      ∧ Advanced d k tail tails r tail' tails' := by
  induction fuel generalizing tail tails delta with
  | zero => omega
  | succ fuel ih =>
    unfold pollLoop
    rw [exec_bind_of_ok (exec_get tail), exec_bind, exec_lift, h.openFrontier]
    cases hfile : d.segments[tail.segment]? with
    | none =>
      exact ⟨.ok delta, tail, tails, rfl, h, id, .inl ⟨rfl, rfl⟩, .inr (h.done_of_none hd hfile)⟩
    | some file =>
      obtain ⟨tails₁, hseen, hcounted, hidle⟩ := h.visit hfile
      have hpart : tail.readFrontier d <+: (d.bytesAt tail.segment).drop tail.offset := by
        unfold Tail.readFrontier
        rw [hfile, bytesAt_of_some hfile]
        exact List.take_prefix _ _
      obtain ⟨delta₁, hexec, hdelta₁⟩ := exec_admitFrontier d (FileStamp.read file)
        (tail.readFrontier d) delta tail hdelta (h.rest_sound hd hpart)
      set seen := tail.admitted (FileStamp.read file) (tail.readFrontier d) with hseendef
      simp only [Option.map_some]
      rw [exec_bind_of_ok hexec, exec_bind_of_ok (exec_get seen)]
      have hsegment : seen.segment = tail.segment := rfl
      by_cases hmoved : tail.offset < seen.offset
      · have hposition : position d tail < position d seen := by
          unfold position
          rw [hsegment]
          omega
        rw [if_pos hmoved]
        exact ⟨.ok delta₁, seen, tails₁, rfl, hseen, hcounted, .inr hposition,
          .inl ⟨⟨delta₁, rfl⟩, hposition⟩⟩
      · have hoffset : seen.offset = tail.offset := by
          have hsum : seen.offset = tail.offset + _ := rfl
          omega
        have hstay : seen.segment = tail.segment ∧ seen.offset = tail.offset := ⟨rfl, hoffset⟩
        obtain ⟨hidle, hflag⟩ := hidle hoffset
        have hlt : tail.segment < k := by
          rw [← hd.dense, hfile]
          rfl
        rw [if_neg hmoved, exec_bind, exec_lift]
        unfold nextSegment
        rw [hsegment]
        by_cases hlimit : tail.segment + 1 < sequenceLimit
        · rw [if_pos hlimit]
          by_cases hnext : d.segments[tail.segment + 1]? = none
          · have hlast : seen.segment + 1 = k := by
              have hnot : ¬ tail.segment + 1 < k := by
                rw [← hd.dense, hnext]
                simp
              omega
            simp only
            rw [if_pos hnext]
            exact ⟨.ok delta₁, seen, tails₁, rfl, hseen, hcounted, .inl hstay,
              .inr (hseen.done_of_idle hidle hlast hflag)⟩
          · simp only
            rw [if_neg hnext, exec_bind_of_ok (exec_set _ seen)]
            have hmore : tail.segment + 1 < k := by
              rw [← hd.dense]
              exact Option.isSome_iff_ne_none.mpr hnext
            have hadvance := hseen.advance hidle hnext
            have htally : tails₁ = tally d seen → tails₁ = tally d (seen.advance (seen.segment + 1)) := by
              intro heq
              rw [heq, tally, hflag]
              rfl
            have hforward : position d tail < position d (seen.advance (seen.segment + 1)) := by
              have hsame : position d tail = position d seen := by
                unfold position
                rw [hsegment, hoffset]
              rw [hsame]
              exact hseen.position_advance
            obtain ⟨r, tail', tails', hrest, hfollows, hcount, hmove, hdone⟩ :=
              ih delta₁ hadvance hdelta₁ (by
                show k < tail.segment + 1 + fuel + 1
                omega) (by omega)
            have hposition : position d tail < position d tail' := by
              rcases hmove with ⟨hseg, hoff⟩ | hlt
              · have hsame : position d tail' = position d (seen.advance (seen.segment + 1)) := by
                  unfold position
                  rw [hseg, hoff]
                omega
              · omega
            refine ⟨r, tail', tails', hrest, hfollows, fun heq => hcount (htally (hcounted heq)),
              .inr hposition, ?_⟩
            rcases hdone with ⟨hok, -⟩ | hdone
            · exact .inl ⟨hok, hposition⟩
            · exact .inr hdone
        · have hlast : seen.segment + 1 = k := by omega
          rw [if_neg hlimit]
          exact ⟨_, seen, tails₁, rfl, hseen, hcounted, .inl hstay,
            .inr (hseen.done_of_idle hidle hlast hflag)⟩

omit [Checksum] in
/-- The number of segments, and the bytes in them. -/
lemma size_add_totalBytes {d : Directory} {k : ℕ}
    (hdense : ∀ n : ℕ, d.segments[n]?.isSome ↔ n < k) :
    d.segments.size = k ∧ totalBytes d + d.segments.size = span d k := by
  have hkeys := keys_eq_range hdense
  have hsize : d.segments.size = k := by
    rw [← ExtTreeMap.length_keys, hkeys, List.length_range]
  have hlengths : d.segments.toList.map (fun r => r.2.bytes.length)
      = (List.range k).map fun n => (d.bytesAt n).length := by
    rw [← hkeys, ← ExtTreeMap.map_fst_toList_eq_keys, List.map_map]
    apply List.map_congr_left
    intro r hr
    have hfile := ExtTreeMap.mem_toList_iff_getElem?_eq_some.mp hr
    show r.2.bytes.length = (d.bytesAt r.1).length
    rw [bytesAt_of_some hfile]
  have hspan : ∀ n, ((List.range n).map fun i => (d.bytesAt i).length).sum + n = span d n := by
    intro n
    induction n with
    | zero => rfl
    | succ n ih =>
      rw [List.range_succ, List.map_append, List.sum_append, span, ← ih]
      simp only [List.map_cons, List.map_nil, List.sum_cons, List.sum_nil]
      omega
  refine ⟨hsize, ?_⟩
  rw [hsize, totalBytes, hlengths]
  exact hspan k

/-- A poll reads on. -/
lemma poll_advanced {d : Directory} {k : ℕ} (hd : d.Readable k) (hk : k ≤ sequenceLimit)
    {tail : Tail (CanonicalChain Op)} {tails : ℕ} (h : Follows d tail tails) :
    ∃ r tail' tails', (poll d).exec tail = (r, tail')
      ∧ Advanced d k tail tails r tail' tails' := by
  have hsize := (size_add_totalBytes hd.dense).1
  refine pollLoop_advanced hd hk _ {} h (ChainDelta.Accounts.refl tail.chain) ?_ (by omega)
  rw [hsize]
  omega

omit [Checksum] in
lemma span_mono (d : Directory) {m n : ℕ} (h : m ≤ n) : span d m ≤ span d n := by
  induction n with
  | zero =>
    obtain rfl : m = 0 := by omega
    exact le_rfl
  | succ n ih =>
    by_cases heq : m = n + 1
    · rw [heq]
    · have hle := ih (by omega)
      rw [span]
      omega

/-- The frontier stays within the directory. -/
lemma Follows.position_le {d : Directory} {k : ℕ} (hd : d.Readable k)
    {tail : Tail (CanonicalChain Op)} {tails : ℕ} (h : Follows d tail tails) :
    position d tail ≤ span d k := by
  have hle : tail.offset ≤ (d.bytesAt tail.segment).length := h.corpus.choose_spec.1.1
  unfold position
  by_cases hnone : d.segments[tail.segment]? = none
  · have hsegment : tail.segment = 0 := by
      by_contra hne
      exact h.reached (Nat.pos_of_ne_zero hne) hnone
    rw [bytesAt_of_none hnone, List.length_nil] at hle
    rw [hsegment, span]
    omega
  · have hlt : tail.segment < k := by
      rw [← hd.dense]
      exact Option.isSome_iff_ne_none.mpr hnone
    have hspan := span_mono d (show tail.segment + 1 ≤ k from hlt)
    rw [span] at hspan
    omega

/-- The loop of a drain, given a turn for each byte and segment that is left. -/
lemma drainLoop_done {d : Directory} {k : ℕ} (hd : d.Readable k) (hk : k ≤ sequenceLimit)
    (fuel : ℕ) (result : ChainDelta Op) {tail : Tail (CanonicalChain Op)} {tails : ℕ}
    (h : Follows d tail tails) (hfuel : span d k < position d tail + fuel) :
    ∃ r tail' tails', (drainLoop d fuel result).exec tail = (r, tail')
      ∧ Follows d tail' tails' ∧ (tails = tally d tail → tails' = tally d tail')
      ∧ Done d k tail' tails' := by
  induction fuel generalizing tail tails result with
  | zero =>
    have hle := h.position_le hd
    omega
  | succ fuel ih =>
    obtain ⟨r, tail₁, tails₁, hpoll, hadvanced⟩ := poll_advanced hd hk h
    unfold drainLoop
    rw [exec_bind_of_ok (exec_get tail), exec_bind, hpoll]
    cases r with
    | error e =>
      refine ⟨.error e, tail₁, tails₁, rfl, hadvanced.follows, hadvanced.counted, ?_⟩
      rcases hadvanced.done with ⟨⟨delta, hok⟩, -⟩ | hdone
      · cases hok
      · exact hdone
    | ok delta =>
      simp only
      rw [exec_bind_of_ok (exec_get tail₁)]
      by_cases hsame : (tail.segment, tail.offset) = (tail₁.segment, tail₁.offset)
      · rw [if_pos hsame]
        obtain ⟨hseg, hoff⟩ := Prod.mk.inj hsame
        refine ⟨_, tail₁, tails₁, rfl, hadvanced.follows, hadvanced.counted, ?_⟩
        rcases hadvanced.done with ⟨-, hlt⟩ | hdone
        · unfold position at hlt
          rw [hseg, hoff] at hlt
          exact absurd hlt (lt_irrefl _)
        · exact hdone
      · rw [if_neg hsame]
        have hlt : position d tail < position d tail₁ := by
          rcases hadvanced.moved with ⟨hseg, hoff⟩ | hlt
          · exact absurd (by rw [hseg, hoff]) hsame
          · exact hlt
        obtain ⟨r', tail', tails', hrest, hfollows, hcount, hdone⟩ :=
          ih (fold result delta) hadvanced.follows (by omega)
        exact ⟨r', tail', tails', hrest, hfollows, fun heq => hcount (hadvanced.counted heq), hdone⟩

/-- A drain reads to the end of the directory. -/
lemma drain_done {d : Directory} {k : ℕ} (hd : d.Readable k) (hk : k ≤ sequenceLimit)
    {tail : Tail (CanonicalChain Op)} {tails : ℕ} (h : Follows d tail tails) :
    ∃ r tail' tails', (drain d).exec tail = (r, tail')
      ∧ Follows d tail' tails' ∧ (tails = tally d tail → tails' = tally d tail')
      ∧ Done d k tail' tails' := by
  apply drainLoop_done hd hk _ {} h
  have hspan := (size_add_totalBytes hd.dense).2
  omega

/-! ## Histories -/

end Tail

/-- A change of a chain directory between polls: bytes are appended to the last segment, or the next
one is created. Other files may change in any way. -/
inductive Directory.Change (d d' : Directory) : Prop where
  | append (n : ℕ) (file : SegmentFile) (x : Bytes) (modified : ℕ)
      (exists_file : d.segments[n]? = some file)
      (last : ∀ m, n < m → d.segments[m]? = none)
      (segments : d'.segments = d.segments.insert n
        ⟨file.bytes ++ x, file.identity, if x = [] then file.modified else modified⟩)
  | create (n : ℕ) (file : SegmentFile) (fresh : ∀ m, n ≤ m → d.segments[m]? = none)
      (next : 0 < n → d.segments[n - 1]? ≠ none)
      (segments : d'.segments = d.segments.insert n file)
  | other (segments : d'.segments = d.segments)

omit [Checksum] in
/-- A change lets a directory grow. -/
lemma Directory.Change.grows {d d' : Directory} (h : d.Change d') : d.Grows d' := by
  cases h with
  | append n file x modified hfile hlast hsegments =>
    refine ⟨fun m old hold => ?_, fun m j hmj hj => ?_⟩
    · rw [hsegments, ExtTreeMap.getElem?_insert]
      by_cases heq : n = m
      · subst heq
        rw [hfile] at hold
        cases hold
        rw [if_pos (by simp)]
        refine ⟨_, rfl, rfl, List.prefix_append _ _, fun hlen => ?_⟩
        have hnil : x = [] := by
          rw [List.length_append] at hlen
          exact List.length_eq_zero_iff.mp (by omega)
        simp [hnil]
      · rw [if_neg (by simpa using heq)]
        exact ⟨old, hold, .refl old⟩
    · have hle : j ≤ n := by
        by_contra hlt
        exact hj (hlast j (by omega))
      rw [hsegments, ExtTreeMap.getElem?_insert, if_neg (by simp; omega)]
  | create n file hfresh hnext hsegments =>
    refine ⟨fun m old hold => ?_, fun m j hmj hj => ?_⟩
    · have hne : n ≠ m := by
        intro heq
        rw [hfresh m (by omega)] at hold
        cases hold
      rw [hsegments, ExtTreeMap.getElem?_insert, if_neg (by simpa using hne)]
      exact ⟨old, hold, .refl old⟩
    · have hlt : j < n := by
        by_contra hle
        exact hj (hfresh j (by omega))
      rw [hsegments, ExtTreeMap.getElem?_insert, if_neg (by simp; omega)]
  | other hsegments =>
    refine ⟨fun m old hold => ⟨old, by rw [hsegments, hold], .refl old⟩, fun m j _ _ => ?_⟩
    rw [hsegments]

/-- A directory and a tail that was polled and drained any number of times while the directory
changed. -/
inductive Followed (root : String) : Directory → Tail (CanonicalChain Op) → Prop where
  | start (d : Directory) : Followed root d (Tail.empty root)
  | change {d d' : Directory} {tail : Tail (CanonicalChain Op)} :
      Followed root d tail → d.Change d' → Followed root d' tail
  | poll {d : Directory} {tail : Tail (CanonicalChain Op)} :
      Followed root d tail → Followed root d ((Tail.poll d).exec tail).2
  | drain {d : Directory} {tail : Tail (CanonicalChain Op)} :
      Followed root d tail → Followed root d ((Tail.drain d).exec tail).2

/-- Along a history the tail follows the directory, if it is readable. -/
lemma Followed.follows {root : String} {d : Directory} {tail : Tail (CanonicalChain Op)}
    (h : Followed root d tail) {k : ℕ} (hd : d.Readable k) (hk : k ≤ sequenceLimit) :
    Tail.Follows d tail (Tail.tally d tail) := by
  induction h generalizing k with
  | start d => exact Tail.follows_empty d root
  | @change d d' tail _ hchange ih =>
    obtain ⟨k₀, hle, hd₀⟩ := Directory.Readable.of_grows hchange.grows hd
    have hfollows := ih hd₀ (by omega)
    have hgrown := hfollows.grows hchange.grows
    unfold Tail.tally at hgrown ⊢
    rw [Tail.countBeyond_of_grows hchange.grows hfollows.reached]
    exact hgrown
  | poll _ ih =>
    obtain ⟨r, tail', tails', hpoll, hadvanced⟩ := Tail.poll_advanced hd hk (ih hd hk)
    rw [hpoll]
    rw [← hadvanced.counted rfl]
    exact hadvanced.follows
  | drain _ ih =>
    obtain ⟨r, tail', tails', hdrain, hfollows, hcounted, -⟩ := Tail.drain_done hd hk (ih hd hk)
    rw [hdrain]
    rw [← hcounted rfl]
    exact hfollows

/-! ## Incremental and full reading -/

/-- A tail holds the same evidence, accepted operations with their locations, and statistics as a
corpus. -/
def Tail.Agrees (tail : Tail (CanonicalChain Op)) (chain : CanonicalChain Op) : Prop :=
  tail.chain.evidence = chain.evidence ∧ tail.chain.accepted = chain.accepted
    ∧ tail.chain.stats = chain.stats

/-- Counts of all cut segments and of those within reach of a slice. -/
lemma countBeyond_short_eq_iff (d : Directory) (k : ℕ) :
    d.countBeyond Tail.short k ≤ d.countBeyond Directory.cut k
      ∧ (d.countBeyond Tail.short k = d.countBeyond Directory.cut k
        ↔ ∀ n < k, bytesBeyond (d.bytesAt n) ≤ maxFrameBytes) := by
  induction k with
  | zero => simp [Directory.countBeyond]
  | succ k ih =>
    obtain ⟨hle, hiff⟩ := ih
    have hall : (∀ n < k + 1, bytesBeyond (d.bytesAt n) ≤ maxFrameBytes)
        ↔ (∀ n < k, bytesBeyond (d.bytesAt n) ≤ maxFrameBytes)
          ∧ bytesBeyond (d.bytesAt k) ≤ maxFrameBytes := by
      simp only [Nat.lt_succ_iff_lt_or_eq, or_imp, forall_and, forall_eq]
    rw [hall, ← hiff]
    have hshort : Tail.short (bytesBeyond (d.bytesAt k)) = true
        ↔ 0 < bytesBeyond (d.bytesAt k) ∧ bytesBeyond (d.bytesAt k) ≤ maxFrameBytes :=
      decide_eq_true_iff
    have hany : Directory.cut (bytesBeyond (d.bytesAt k)) = true
        ↔ 0 < bytesBeyond (d.bytesAt k) :=
      decide_eq_true_iff
    simp only [Directory.countBeyond, hshort, hany]
    by_cases hcut : 0 < bytesBeyond (d.bytesAt k)
    · by_cases hreach : bytesBeyond (d.bytesAt k) ≤ maxFrameBytes
      · simp only [hcut, hreach, and_true, if_true, Nat.add_right_cancel_iff]
        omega
      · simp only [hcut, hreach, and_false, if_true, if_false, iff_false]
        exact ⟨by omega, by omega⟩
    · have hzero : bytesBeyond (d.bytesAt k) ≤ maxFrameBytes := by omega
      simp only [hcut, hzero, if_false, Nat.add_zero, and_true]
      exact hle

/-- What a drain at the end of a history holds: all that a full read finds, but only the incomplete
tails that lie within reach of one slice are counted. -/
lemma Followed.drain_eq {root : String} {d : Directory} {tail : Tail (CanonicalChain Op)}
    (h : Followed root d tail) {k : ℕ} (hd : d.Readable k) (hk : k ≤ sequenceLimit) :
    ((Tail.drain d).exec tail).2.chain
      = (d.corpus k).withTails (d.countBeyond Tail.short k) := by
  obtain ⟨r, tail', tails', hdrain, -, hcounted, hchain, hcount⟩ :=
    Tail.drain_done hd hk (h.follows hd hk)
  rw [hdrain]
  show tail'.chain = _
  rw [hchain, hcount (hcounted rfl)]

/-- The final drain agrees with a full read exactly when every cut item is within reach. -/
lemma Followed.agrees_iff {root : String} {d : Directory} {tail : Tail (CanonicalChain Op)}
    (h : Followed root d tail) {chain : CanonicalChain Op}
    (hread : CanonicalChain.read d = .ok chain) :
    ((Tail.drain d).exec tail).2.Agrees chain
      ↔ ∀ (n : ℕ) (file : SegmentFile), d.segments[n]? = some file →
        bytesBeyond file.bytes ≤ maxFrameBytes := by
  obtain ⟨k, hd, hk, hchain⟩ := readable_of_read hread
  have hdrain := h.drain_eq hd hk
  have hreach : (∀ (n : ℕ) (file : SegmentFile), d.segments[n]? = some file →
      bytesBeyond file.bytes ≤ maxFrameBytes)
        ↔ ∀ n < k, bytesBeyond (d.bytesAt n) ≤ maxFrameBytes := by
    refine ⟨fun hfiles n hn => ?_, fun hall n file hfile => ?_⟩
    · obtain ⟨file, hfile⟩ := hd.exists_file hn
      rw [Directory.bytesAt_of_some hfile]
      exact hfiles n file hfile
    · have hn : n < k := by
        rw [← hd.dense, hfile]
        rfl
      have hle := hall n hn
      rwa [Directory.bytesAt_of_some hfile] at hle
  rw [hreach, ← (countBeyond_short_eq_iff d k).2]
  unfold Tail.Agrees
  rw [hdrain, hchain]
  refine ⟨fun hagrees => ?_, fun heq => ?_⟩
  · exact congrArg ChainReadStats.incompleteTails hagrees.2.2
  · rw [heq]
    exact ⟨rfl, rfl, rfl⟩

/-- Incremental reading equals full reading, and every successful drain accounts for the change of
the accepted set, exactly when no segment has more than one largest frame of bytes beyond its last
complete item. -/
theorem Followed.incremental_eq_full_iff {root : String} {d : Directory}
    {tail : Tail (CanonicalChain Op)} {chain : CanonicalChain Op} (h : Followed root d tail)
    (hread : CanonicalChain.read d = .ok chain) :
    (((Tail.drain d).exec tail).2.Agrees chain
        ∧ ∀ (d₁ : Directory) (tail₁ tail₂ : Tail (CanonicalChain Op)) (delta : ChainDelta Op),
          Followed root d₁ tail₁ → (Tail.drain d₁).exec tail₁ = (.ok delta, tail₂) →
            (∀ id, id ∈ tail₂.chain.accepted
              ↔ (id ∈ tail₁.chain.accepted ∧ id ∉ delta.removed) ∨ id ∈ delta.added)
            ∧ ∀ (id : OpId) op location, delta.added[id]? = some (op, location) →
              tail₂.chain.accepted[id]? = some (op, some location))
      ↔ ∀ (n : ℕ) (file : SegmentFile), d.segments[n]? = some file →
        bytesBeyond file.bytes ≤ maxFrameBytes := by
  rw [← h.agrees_iff hread]
  refine ⟨And.left, fun hagrees => ⟨hagrees, ?_⟩⟩
  intro d₁ tail₁ tail₂ delta _ hdrain
  have haccounts := Tail.drainLoop_accounts _ (ChainDelta.Accounts.refl tail₁.chain) hdrain
  exact ⟨haccounts.accepted, haccounts.added⟩

/-- A frame with one message. -/
def messageFrame : Bytes := @frameBytes crc32cChecksum 0 [⟨0, messageV1⟩]

/-- A directory with one segment. -/
def oneSegment (bytes : Bytes) (modified : ℕ) : Directory :=
  { Directory.empty with segments := ExtTreeMap.empty.insert 0 ⟨bytes, (1, 7), modified⟩ }

omit [Checksum] in
lemma getElem?_oneSegment (bytes : Bytes) (modified n : ℕ) :
    (oneSegment bytes modified).segments[n]?
      = if n = 0 then some ⟨bytes, (1, 7), modified⟩ else none := by
  show (ExtTreeMap.empty.insert 0 _ : ExtTreeMap ℕ SegmentFile)[n]? = _
  rw [ExtTreeMap.getElem?_insert]
  by_cases hzero : n = 0
  · rw [if_pos (by simp [hzero]), if_pos hzero]
  · rw [if_neg (by simpa using Ne.symm hzero), if_neg hzero]
    simp

omit [Schema Op] [Checksum] in
/-- A frame that arrives in two parts, with a poll in between. -/
theorem Followed.incremental_eq_full_after_cut :
    ∃ chain, @CanonicalChain.read OpId messageSchema crc32cChecksum (oneSegment messageFrame 2)
        = .ok chain
      ∧ @Tail.Agrees OpId
        ((@Tail.drain OpId messageSchema crc32cChecksum (CanonicalChain OpId)
          (@instTailCorpusCanonicalChain OpId messageSchema) (oneSegment messageFrame 2)).exec
        ((@Tail.poll OpId messageSchema crc32cChecksum (CanonicalChain OpId)
          (@instTailCorpusCanonicalChain OpId messageSchema)
          (oneSegment (messageFrame.take 40) 1)).exec
        (@Tail.empty OpId (CanonicalChain OpId)
          (@instTailCorpusCanonicalChain OpId messageSchema) "chain")).2).2 chain := by
  have hread : (@CanonicalChain.read OpId messageSchema crc32cChecksum
      (oneSegment messageFrame 2)).toOption.isSome = true := by
    decide +kernel
  cases hok : @CanonicalChain.read OpId messageSchema crc32cChecksum (oneSegment messageFrame 2) with
  | error e =>
    rw [hok] at hread
    cases hread
  | ok chain =>
    refine ⟨chain, rfl, ?_⟩
    have hchange : (oneSegment (messageFrame.take 40) 1).Change (oneSegment messageFrame 2) := by
      refine .append 0 ⟨messageFrame.take 40, (1, 7), 1⟩ (messageFrame.drop 40) 2
        (getElem?_oneSegment _ _ 0) (fun m hm => ?_) ?_
      · rw [getElem?_oneSegment, if_neg (by omega)]
      · have hrest : messageFrame.drop 40 ≠ [] := by decide +kernel
        refine ExtTreeMap.ext_getElem? fun n => ?_
        rw [ExtTreeMap.getElem?_insert, getElem?_oneSegment, getElem?_oneSegment,
          List.take_append_drop, if_neg hrest]
        by_cases hzero : n = 0
        · rw [if_pos hzero, if_pos (by simp [hzero])]
        · rw [if_neg hzero, if_neg (by simpa using Ne.symm hzero), if_neg hzero]
    have hfollowed := @Followed.change OpId messageSchema crc32cChecksum "chain" _ _ _
      (@Followed.poll OpId messageSchema crc32cChecksum "chain" _ _
        (@Followed.start OpId messageSchema crc32cChecksum "chain" _)) hchange
    refine ((@Followed.incremental_eq_full_iff OpId messageSchema crc32cChecksum "chain" _ _ chain
      hfollowed hok).mpr ?_).1
    intro n file hfile
    rw [getElem?_oneSegment] at hfile
    split at hfile
    · cases hfile
      have hlength : messageFrame.length ≤ maxFrameBytes := by decide +kernel
      exact (Nat.sub_le _ _).trans hlength
    · cases hfile

/-! ## A complete frame that is taken for an incomplete one

The record count of a frame may promise more records than its region holds; the scanner then asks
for more input although the frame is complete and its checksums match.
-/

/-- A frame of one record whose header promises two. -/
def overcounted : Bytes :=
  @sealBytes crc32cChecksum (@sealBytes crc32cChecksum (headerFields 54 2 0)
    ++ @encodeRecord crc32cChecksum ⟨0, List.replicate 9 0⟩)

omit [Checksum] in
lemma run_overcounted (y : Bytes) :
    (@pages crc32cChecksum).run none (overcounted ++ y) = ⟨[], 0, none, .more⟩ := by
  have hheader : @scanHeader crc32cChecksum overcounted = .ok 54 := by decide +kernel
  have hframe : @scanFrame crc32cChecksum overcounted = .error .incomplete := by decide +kernel
  have hhead : ByteString.slice? (overcounted ++ y) 0 4 = some magic := by
    rw [ByteString.slice?_append (by decide +kernel)]
    decide +kernel
  apply run_of_more
  · intro hnil
    have hlength := congrArg List.length (List.append_eq_nil_iff.mp hnil).1
    revert hlength
    decide +kernel
  · show @chunk crc32cChecksum none (overcounted ++ y) = .more
    rw [@chunk_of_head crc32cChecksum none _ _ hhead, unitKind_eq_frame.mpr rfl]
    show @frameChunk crc32cChecksum (overcounted ++ y) = .more
    unfold frameChunk
    rw [@scanFrame_append_of_header crc32cChecksum _ _ hheader (by decide +kernel), hframe]
    rfl

omit [Checksum] in
lemma bytesBeyond_overcounted (y : Bytes) :
    @bytesBeyond crc32cChecksum (overcounted ++ y) = 54 + y.length := by
  have hlength : overcounted.length = 54 := by decide +kernel
  unfold bytesBeyond
  rw [@consumed_new crc32cChecksum, run_overcounted, List.length_append, hlength, Nat.sub_zero]

omit [Checksum] in
lemma readable_overcounted (y : Bytes) :
    @Directory.Readable crc32cChecksum (oneSegment (overcounted ++ y) 0) 1 := by
  refine @Directory.Readable.mk crc32cChecksum _ _ (fun n => ?_) (fun n e => ?_)
  · rw [getElem?_oneSegment]
    by_cases hzero : n = 0
    · simp [hzero]
    · simp only [hzero, if_false, Option.isSome_none]
      simp
      omega
  · have hfile := getElem?_oneSegment (overcounted ++ y) 0 n
    by_cases hzero : n = 0
    · rw [if_pos hzero] at hfile
      rw [Directory.bytesAt_of_some hfile, run_overcounted]
      simp
    · rw [if_neg hzero] at hfile
      rw [Directory.bytesAt_of_none hfile]
      simp

omit [Checksum] in
/-- With more than a slice of further bytes, the cut item is out of reach. -/
lemma countBeyond_overcounted (y : Bytes) (h : maxFrameBytes ≤ y.length) :
    @Directory.countBeyond crc32cChecksum Directory.cut (oneSegment (overcounted ++ y) 0) 1 = 1
      ∧ @Directory.countBeyond crc32cChecksum Tail.short (oneSegment (overcounted ++ y) 0) 1 = 0 := by
  have hbytes : (oneSegment (overcounted ++ y) 0).bytesAt 0 = overcounted ++ y :=
    Directory.bytesAt_of_some (getElem?_oneSegment (overcounted ++ y) 0 0)
  have hbeyond := bytesBeyond_overcounted y
  have hcut : Directory.cut (54 + y.length) = true := decide_eq_true (by omega)
  have hshort : Tail.short (54 + y.length) = false := decide_eq_false (by omega)
  simp only [Directory.countBeyond, hbytes, hbeyond, hcut, hshort]
  exact ⟨rfl, rfl⟩

omit [Schema Op] [Checksum] in
/-- A full read counts the incomplete tail of that segment; a tail that is drained does not. -/
theorem Followed.overcounted_tail_missed :
    ∃ (d : Directory) (tail : Tail (CanonicalChain OpId)) (chain : CanonicalChain OpId),
      @Followed OpId messageSchema crc32cChecksum "chain" d tail
        ∧ @CanonicalChain.read OpId messageSchema crc32cChecksum d = .ok chain
        ∧ chain.stats.incompleteTails = 1
        ∧ (((@Tail.drain OpId messageSchema crc32cChecksum (CanonicalChain OpId)
            (@instTailCorpusCanonicalChain OpId messageSchema) d).exec tail).2).chain.stats
          ≠ chain.stats := by
  have key : ∀ y : Bytes, maxFrameBytes ≤ y.length →
      @CanonicalChain.read OpId messageSchema crc32cChecksum (oneSegment (overcounted ++ y) 0)
          = .ok ((@Directory.corpus OpId messageSchema crc32cChecksum
            (oneSegment (overcounted ++ y) 0) 1).withTails 1)
        ∧ (((@Tail.drain OpId messageSchema crc32cChecksum (CanonicalChain OpId)
            (@instTailCorpusCanonicalChain OpId messageSchema) (oneSegment (overcounted ++ y) 0)).exec
              (@Tail.empty OpId (CanonicalChain OpId)
                (@instTailCorpusCanonicalChain OpId messageSchema) "chain")).2).chain
          = (@Directory.corpus OpId messageSchema crc32cChecksum
            (oneSegment (overcounted ++ y) 0) 1).withTails 0 := by
    intro y hy
    obtain ⟨hcut, hshort⟩ := countBeyond_overcounted y hy
    have hd := readable_overcounted y
    refine ⟨?_, ?_⟩
    · rw [@read_of_readable OpId messageSchema crc32cChecksum _ _ hd (by decide) rfl, hcut]
    · rw [@Followed.drain_eq OpId messageSchema crc32cChecksum "chain" _ _
        (@Followed.start OpId messageSchema crc32cChecksum "chain" _) 1 hd (by decide), hshort]
  obtain ⟨hread, hdrain⟩ := key (List.replicate maxFrameBytes 0) (by rw [List.length_replicate])
  refine ⟨_, _, _, @Followed.start OpId messageSchema crc32cChecksum "chain" _, hread, rfl, ?_⟩
  rw [hdrain]
  intro hstats
  have hcount := congrArg ChainReadStats.incompleteTails hstats
  cases hcount

end EditChain.Store
