import EditChain.Migration.RecordTheorems
import EditChain.Migration.Scope
import EditChain.Sync.OccurrenceTheorems

/-!
# Migration keeps the consent

The translation meets every decodable record of the source in order. What it has collected after
some of them says which listed keys moved where, and which new keys stand for records below the
cutoff.
-/

namespace EditChain.Migration

open Fallible Store Sync UnitReader
open Std (ExtTreeMap ExtTreeSet)

variable {P : Payloads} [AddressHash] [Postcard P] [Blake3] [Checksum]

/-! ## The translation -/

/-- A record of the source and the key of its migrated bytes. -/
def Moves (r : Occurrence) (new : RecordKey) : Prop :=
  ∃ bytes, migrateRecord r.2.bytes = .ok bytes ∧ new = ⟨r.1.id, Blake3.hash bytes⟩

/-- What the translation has collected from the records met so far. -/
structure Collects (scope : Scope) (requested : ExtTreeSet RecordKey) (l : List Occurrence)
    (t : Translation) : Prop where
  found : ∀ key new, t.translated[key]? = some new → ∃ r ∈ l, r.1 = key ∧ Moves r new
  complete : ∀ r ∈ l, r.1 ∈ requested → ∃ new, t.translated[r.1]? = some new
  cutoff : ∀ new, new ∈ t.excludedByCutoff
    ↔ ∃ r ∈ l, scope.beforeCutoff r.2.segment = true ∧ Moves r new

variable {scope : Scope} {requested : ExtTreeSet RecordKey} {l : List Occurrence} {t : Translation}

omit [Checksum] in
lemma collects_nil : Collects scope requested [] {} := by
  refine ⟨?_, ?_, ?_⟩
  · intro key new h
    simp at h
  · intro r hr
    cases hr
  · intro new
    simp

omit [Checksum] in
/-- A record that is neither listed nor below the cutoff is passed over. -/
lemma Collects.pass {o : Occurrence} (h : Collects scope requested l t)
    (hbefore : scope.beforeCutoff o.2.segment = false) (hlisted : o.1 ∉ requested) :
    Collects scope requested (l ++ [o]) t := by
  refine ⟨?_, ?_, ?_⟩
  · intro key new hnew
    obtain ⟨r, hr, hkey⟩ := h.found key new hnew
    exact ⟨r, List.mem_append_left _ hr, hkey⟩
  · intro r hr hrequested
    rcases List.mem_append.mp hr with hr | hr
    · exact h.complete r hr hrequested
    · rw [List.mem_singleton.mp hr] at hrequested
      exact absurd hrequested hlisted
  · intro new
    rw [h.cutoff new]
    constructor
    · rintro ⟨r, hr, hcut⟩
      exact ⟨r, List.mem_append_left _ hr, hcut⟩
    · rintro ⟨r, hr, hcut, hmoves⟩
      rcases List.mem_append.mp hr with hr | hr
      · exact ⟨r, hr, hcut, hmoves⟩
      · rw [List.mem_singleton.mp hr, hbefore] at hcut
        cases hcut

omit [Checksum] in
/-- Any other record is entered under its new key. -/
lemma Collects.enter {o : Occurrence} {new : RecordKey} (h : Collects scope requested l t)
    (hmoves : Moves o new) :
    Collects scope requested (l ++ [o])
      { translated := if requested.contains o.1 then t.translated.insert o.1 new else t.translated
        excludedByCutoff :=
          if scope.beforeCutoff o.2.segment then t.excludedByCutoff.insert new
          else t.excludedByCutoff } := by
  have hlast : o ∈ l ++ [o] := List.mem_append_right _ (List.mem_singleton_self o)
  refine ⟨?_, ?_, ?_⟩
  · intro key new' hnew
    have hold : t.translated[key]? = some new' → ∃ r ∈ l ++ [o], r.1 = key ∧ Moves r new' := by
      intro hsome
      obtain ⟨r, hr, hkey⟩ := h.found key new' hsome
      exact ⟨r, List.mem_append_left _ hr, hkey⟩
    by_cases hlisted : requested.contains o.1 = true
    · simp only [hlisted, if_true, ExtTreeMap.getElem?_insert] at hnew
      split at hnew
      · next heq =>
        cases hnew
        exact ⟨o, hlast, Std.LawfulEqOrd.eq_of_compare heq, hmoves⟩
      · exact hold hnew
    · rw [if_neg hlisted] at hnew
      exact hold hnew
  · intro r hr hrequested
    have hsome : ∀ r' ∈ l, r'.1 ∈ requested → ∃ new',
        (t.translated.insert o.1 new)[r'.1]? = some new' := by
      intro r' hr' hrequested'
      rw [ExtTreeMap.getElem?_insert]
      split
      · exact ⟨new, rfl⟩
      · exact h.complete r' hr' hrequested'
    by_cases hlisted : requested.contains o.1 = true
    · simp only [hlisted, if_true]
      rcases List.mem_append.mp hr with hr | hr
      · exact hsome r hr hrequested
      · rw [List.mem_singleton.mp hr]
        exact ⟨new, ExtTreeMap.getElem?_insert_self⟩
    · rw [if_neg hlisted]
      rcases List.mem_append.mp hr with hr | hr
      · exact h.complete r hr hrequested
      · rw [List.mem_singleton.mp hr] at hrequested
        exact absurd (ExtTreeSet.contains_iff_mem.mpr hrequested) hlisted
  · intro new'
    have hold : (∃ r ∈ l ++ [o], scope.beforeCutoff r.2.segment = true ∧ Moves r new')
        ↔ new' ∈ t.excludedByCutoff
          ∨ scope.beforeCutoff o.2.segment = true ∧ Moves o new' := by
      rw [h.cutoff new']
      simp only [List.mem_append, List.mem_singleton, or_and_right, exists_or, exists_eq_left]
    rw [hold]
    by_cases hbefore : scope.beforeCutoff o.2.segment = true
    · simp only [hbefore, if_true, true_and, ExtTreeSet.mem_insert,
        Std.LawfulEqCmp.compare_eq_iff_eq]
      constructor
      · rintro (rfl | hin)
        · exact .inr hmoves
        · exact .inl hin
      · rintro (hin | hmoves')
        · exact .inr hin
        · obtain ⟨bytes, hbytes, rfl⟩ := hmoves
          obtain ⟨bytes', hbytes', rfl⟩ := hmoves'
          rw [hbytes] at hbytes'
          cases hbytes'
          exact .inl rfl
    · simp [hbefore]

omit [Checksum] in
/-- One record: the decodable ones are collected, the others skipped. -/
lemma wp_translateRecord (h : Collects scope requested l t) (sequence : ℕ) (bytes : Bytes) :
    wp (translateRecord scope requested sequence bytes)
      (fun _ t' => Collects scope requested (l ++ decodable sequence [bytes]) t')
      (fun _ _ => True) t := by
  unfold translateRecord
  cases hop : (decodeOp bytes : Except PostcardError (Op P)) with
  | error e =>
    have hnone : decodable sequence [bytes] = [] := by
      have hdecode : (Schema.decodeOp bytes : Except PostcardError (Op P)) = .error e := hop
      simp [decodable, hdecode]
    rw [hnone, List.append_nil]
    exact h
  | ok op =>
    have hone : decodable sequence [bytes]
        = [(⟨op.id, Blake3.hash bytes⟩, ⟨bytes, sequence⟩)] := by
      have hdecode : (Schema.decodeOp bytes : Except PostcardError (Op P)) = .ok op := hop
      simp only [decodable, List.filterMap_cons, hdecode, List.filterMap_nil]
      rfl
    rw [hone]
    simp only
    rw [wp_ite]
    refine ⟨fun _ => ?_, fun hskip => ?_⟩
    · rw [wp_bind, wp_lift]
      refine ⟨fun new hnew => ?_, fun _ _ => trivial⟩
      rw [wp_modify]
      have hmoves : Moves (P := P) (⟨op.id, Blake3.hash bytes⟩, ⟨bytes, sequence⟩) new := by
        unfold newKey at hnew
        obtain ⟨migrated, hmigrated, hnew⟩ := bind_eq_ok.mp hnew
        rw [pure_eq_ok] at hnew
        cases hrecord : (migrateRecord bytes : Except PostcardError Bytes) with
        | error e =>
          rw [hrecord] at hmigrated
          cases hmigrated
        | ok out =>
          rw [hrecord] at hmigrated
          cases hmigrated
          exact ⟨migrated, hrecord, hnew.symm⟩
      exact h.enter hmoves
    · rw [Bool.or_eq_true, not_or, Bool.not_eq_true] at hskip
      apply h.pass hskip.1
      intro hin
      exact hskip.2 (ExtTreeSet.contains_iff_mem.mpr hin)

omit [Checksum] in
/-- The items of a segment, up to a torn tail. -/
lemma wp_translateItems (h : Collects scope requested l t) (sequence : ℕ) (items : List ScanItem)
    (rest : List (Except ScanError ScanItem))
    (hrest : ∀ item ∈ rest, ∃ error, item = .error error) :
    wp (translateItems scope requested sequence (items.map .ok ++ rest))
      (fun _ t' => Collects scope requested
        (l ++ decodable sequence ((recordRefs items).map RecordRef.data)) t')
      (fun _ _ => True) t := by
  induction items generalizing l t with
  | nil =>
    have hnil : decodable sequence ((recordRefs []).map RecordRef.data) = [] := rfl
    rw [hnil, List.append_nil]
    cases rest with
    | nil => exact h
    | cons item rest =>
      obtain ⟨error, rfl⟩ := hrest item List.mem_cons_self
      show wp (translateItems scope requested sequence (.error error :: rest)) _ _ t
      unfold translateItems
      rw [wp_ite]
      exact ⟨fun _ => h, fun _ => trivial⟩
  | cons item items ih =>
    cases item with
    | page number offset => exact ih h
    | record r =>
      show wp (translateItems scope requested sequence
        (.ok (.record r) :: (items.map .ok ++ rest))) _ _ t
      unfold translateItems
      rw [wp_bind]
      apply wp_mono (wp_translateRecord h sequence r.data) _ (fun _ _ _ => trivial)
      intro _ t' ht'
      apply wp_mono (ih ht') _ (fun _ _ h => h)
      intro _ t'' ht''
      have hsplit : l ++ decodable sequence ((recordRefs (.record r :: items)).map RecordRef.data)
          = l ++ decodable sequence [r.data]
            ++ decodable sequence ((recordRefs items).map RecordRef.data) := by
        rw [List.append_assoc]
        congr 1
        show decodable sequence ([r.data] ++ (recordRefs items).map RecordRef.data) = _
        unfold decodable
        rw [List.filterMap_append]
      rw [hsplit]
      exact ht''

/-- All segments of the source. -/
lemma wp_translateSegments {d : Directory} (cancels : List Bool) (a m : ℕ)
    (h : Collects scope requested (occurrences d a) t) :
    wp (translateSegments scope requested d (List.range' a m) cancels)
      (fun _ t' => Collects scope requested (occurrences d (a + m)) t')
      (fun _ _ => True) t := by
  induction m generalizing a t cancels with
  | zero => exact h
  | succ m ih =>
    rw [List.range'_succ]
    unfold translateSegments
    rw [wp_guard]
    refine ⟨fun _ => trivial, fun _ => ?_⟩
    rw [wp_bind, wp_lift]
    refine ⟨fun bytes hread => ?_, fun _ _ => trivial⟩
    have hbytes : d.bytesAt a = bytes := by
      unfold Directory.read at hread
      unfold Directory.bytesAt
      split at hread
      · next file hfile =>
        cases hread
        simp [hfile]
      · cases hread
    have hitems := PageScanner.items_resume bytes none
    rw [show PageScanner.new bytes = PageScanner.resume bytes none from rfl, hitems, wp_bind]
    have hends : ∀ item ∈ PageScanner.endError (pages.run none bytes).consumed
        (pages.run none bytes).ending, ∃ error, item = .error error := by
      intro item hitem
      cases hending : (pages.run none bytes).ending with
      | clean =>
        rw [hending] at hitem
        cases hitem
      | more =>
        rw [hending] at hitem
        exact ⟨_, List.mem_singleton.mp hitem⟩
      | bad kind =>
        rw [hending] at hitem
        exact ⟨_, List.mem_singleton.mp hitem⟩
    apply wp_mono (wp_translateItems h a _ _ hends) _ (fun _ _ _ => trivial)
    intro _ t' ht'
    have hnext : Collects scope requested (occurrences d (a + 1)) t' := by
      unfold occurrences
      rw [located_eq, hbytes]
      exact ht'
    have hrest := ih cancels.tail (a + 1) hnext
    rw [show a + (m + 1) = a + 1 + m by omega]
    exact hrest

/-! ## The first occurrence -/

/-- No occurrence lies in a segment before the first one. -/
lemma segment_firstOf_le {d : Directory} {k : ℕ} {r : Occurrence} (hr : r ∈ occurrences d k)
    {first : RetainedRecord} (hfirst : firstOf (occurrences d k) r.1 = some first) :
    first.segment ≤ r.2.segment := by
  induction k with
  | zero => cases hr
  | succ k ih =>
    unfold occurrences at hr hfirst
    have hlast : ∀ o ∈ located k (unitRecords (pages.run none (d.bytesAt k)).units),
        o.2.segment = k := by
      intro o ho
      rw [located_eq] at ho
      exact (mem_decodable ho).1
    rw [firstOf_append] at hfirst
    cases hold : firstOf (occurrences d k) r.1 with
    | some earlier =>
      rw [hold] at hfirst
      cases hfirst
      rcases List.mem_append.mp hr with hr | hr
      · exact ih hr hold
      · obtain ⟨o, ho, rfl⟩ := Option.map_eq_some_iff.mp hold
        have hlt := segment_lt_of_mem (List.mem_of_find?_eq_some ho)
        rw [hlast r hr]
        omega
    | none =>
      rw [hold, Option.none_or] at hfirst
      rcases List.mem_append.mp hr with hr | hr
      · have hsome := firstOf_isSome.mpr ⟨r, hr, rfl⟩
        rw [hold] at hsome
        cases hsome
      · obtain ⟨o, ho, rfl⟩ := Option.map_eq_some_iff.mp hfirst
        rw [hlast r hr, hlast o (List.mem_of_find?_eq_some ho)]

/-- A key is below the cutoff if one of its occurrences is. -/
lemma beforeCutoff_of_firstOf {d : Directory} {k : ℕ} {r : Occurrence}
    (hr : r ∈ occurrences d k) {first : RetainedRecord}
    (hfirst : firstOf (occurrences d k) r.1 = some first)
    (hbefore : scope.beforeCutoff r.2.segment = true) : scope.beforeCutoff first.segment = true := by
  have hle := segment_firstOf_le hr hfirst
  unfold Scope.beforeCutoff at hbefore ⊢
  rw [Option.any_eq_true] at hbefore ⊢
  obtain ⟨cutoff, hcutoff, hlt⟩ := hbefore
  refine ⟨cutoff, hcutoff, ?_⟩
  rw [decide_eq_true_eq] at hlt ⊢
  omega

/-! ## The translated policy -/

/-- The source keys: those of the log, and those that the policy lists. -/
def SourceKey (d : Directory) (scope : Scope) (key : RecordKey) : Prop :=
  key ∈ logKeys d ∨ key ∈ listedKeys scope

/-- Where a source key goes: a listed key that does not occur in the log stays. -/
def Migrates (d : Directory) (key new : RecordKey) : Prop :=
  (∃ r ∈ history d, r.1 = key ∧ Moves r new) ∨ key ∉ logKeys d ∧ new = key

/-- Distinct source keys migrate to distinct keys. -/
def Distinct (d : Directory) (scope : Scope) : Prop :=
  ∀ k₁ k₂ new, SourceKey d scope k₁ → SourceKey d scope k₂ → Migrates d k₁ new →
    Migrates d k₂ new → k₁ = k₂

/-- The consent for one record before and after migration. -/
structure SameConsent (scope migrated : Scope) (key new : RecordKey) (first : RetainedRecord) :
    Prop where
  excluded : ∀ segment, migrated.excludes new segment = scope.excludes key first.segment
  received : new ∈ migrated.received ↔ key ∈ scope.received
  locals : new ∈ migrated.locals ↔ key ∈ scope.locals

omit [Blake3] [Checksum] [AddressHash] [Postcard P] in
lemma mem_listedKeys {key : RecordKey} :
    key ∈ listedKeys scope ↔ key ∈ scope.excluded ∨ key ∈ scope.received ∨ key ∈ scope.locals := by
  unfold listedKeys
  rw [ExtTreeSet.mem_ofList, List.contains_iff_mem]
  simp

omit [Blake3] [Checksum] [AddressHash] [Postcard P] in
lemma mem_remap {keys : ExtTreeSet RecordKey} {new : RecordKey} :
    new ∈ t.remap keys ↔ ∃ key ∈ keys, t.translated[key]?.getD key = new := by
  unfold Translation.remap
  rw [ExtTreeSet.mem_ofList, List.contains_iff_mem]
  simp

section Policy

variable {d : Directory} (hcollects : Collects scope (listedKeys scope) (history d) t)

include hcollects

/-- A listed key is translated to where it goes. -/
lemma migrates_remap {key : RecordKey} (hkey : key ∈ listedKeys scope) :
    Migrates d key (t.translated[key]?.getD key) := by
  cases hnew : t.translated[key]? with
  | some new =>
    obtain ⟨r, hr, hkey', hmoves⟩ := hcollects.found key new hnew
    exact .inl ⟨r, hr, hkey', hmoves⟩
  | none =>
    refine .inr ⟨fun hin => ?_, rfl⟩
    obtain ⟨r, hr, rfl⟩ := List.mem_map.mp hin
    obtain ⟨new, hsome⟩ := hcollects.complete r hr hkey
    rw [hnew] at hsome
    cases hsome

/-- A listed key of the log is listed under its new name. -/
lemma mem_remap_of_mem {keys : ExtTreeSet RecordKey}
    (hkeys : ∀ key ∈ keys, key ∈ listedKeys scope) {r : Occurrence} (hr : r ∈ history d)
    {new : RecordKey} (hmoves : Moves r new)
    (hhash : ∀ r' ∈ history d, r'.1 = r.1 → r'.2.bytes = r.2.bytes) (hkey : r.1 ∈ keys) :
    new ∈ t.remap keys := by
  rw [mem_remap]
  refine ⟨r.1, hkey, ?_⟩
  obtain ⟨new', hnew'⟩ := hcollects.complete r hr (hkeys r.1 hkey)
  obtain ⟨r', hr', hsame, bytes', hbytes', rfl⟩ := hcollects.found r.1 new' hnew'
  obtain ⟨bytes, hbytes, rfl⟩ := hmoves
  rw [hhash r' hr' hsame, hbytes] at hbytes'
  cases hbytes'
  rw [hnew', hsame]
  rfl

/-- Nothing else is listed under that name. -/
lemma mem_of_mem_remap (hdistinct : Distinct d scope) {keys : ExtTreeSet RecordKey}
    (hkeys : ∀ key ∈ keys, key ∈ listedKeys scope) {r : Occurrence} (hr : r ∈ history d)
    {new : RecordKey} (hmoves : Moves r new) (hnew : new ∈ t.remap keys) : r.1 ∈ keys := by
  obtain ⟨key, hkey, rfl⟩ := mem_remap.mp hnew
  have hlog : r.1 ∈ logKeys d := List.mem_map_of_mem hr
  have hsame : key = r.1 := hdistinct key r.1 _ (.inr (hkeys key hkey)) (.inl hlog)
    (migrates_remap hcollects (hkeys key hkey)) (.inl ⟨r, hr, rfl, hmoves⟩)
  rwa [← hsame]

omit hcollects in
omit [Blake3] [Checksum] [AddressHash] [Postcard P] in
lemma excludes_apply {new : RecordKey} {segment : ℕ} :
    (t.apply scope).excludes new segment = true
      ↔ new ∈ t.remap scope.excluded ∨ new ∈ t.excludedByCutoff := by
  unfold Scope.excludes Translation.apply Scope.beforeCutoff
  simp

/-- What was withheld stays withheld, whatever other keys migrate to. -/
lemma excludes_of_excludes {r : Occurrence} (hr : r ∈ history d) {new : RecordKey}
    (hmoves : Moves r new) (hhash : ∀ r' ∈ history d, r'.1 = r.1 → r'.2.bytes = r.2.bytes)
    {first : RetainedRecord} (hfirst : firstOf (history d) r.1 = some first)
    (hexcludes : scope.excludes r.1 first.segment = true) (segment : ℕ) :
    (t.apply scope).excludes new segment = true := by
  rw [excludes_apply]
  unfold Scope.excludes at hexcludes
  rw [Bool.or_eq_true, ExtTreeSet.contains_iff_mem] at hexcludes
  rcases hexcludes with hlisted | hbefore
  · apply Or.inl
    exact mem_remap_of_mem hcollects (fun _ h => mem_listedKeys.mpr (.inl h)) hr hmoves hhash hlisted
  · apply Or.inr
    rw [hcollects.cutoff]
    obtain ⟨o, ho, rfl⟩ := Option.map_eq_some_iff.mp hfirst
    have hin := List.mem_of_find?_eq_some ho
    have hkey : o.1 = r.1 := by simpa using List.find?_some ho
    refine ⟨o, hin, hbefore, ?_⟩
    obtain ⟨bytes, hbytes, rfl⟩ := hmoves
    exact ⟨bytes, by rw [hhash o hin hkey, hbytes], by rw [hkey]⟩

/-- Nothing else becomes withheld, as long as keys stay distinct. -/
lemma excludes_of_excludes_apply (hdistinct : Distinct d scope) {r : Occurrence}
    (hr : r ∈ history d) {new : RecordKey} (hmoves : Moves r new) {first : RetainedRecord}
    (hfirst : firstOf (history d) r.1 = some first) {segment : ℕ}
    (hexcludes : (t.apply scope).excludes new segment = true) :
    scope.excludes r.1 first.segment = true := by
  unfold Scope.excludes
  rw [Bool.or_eq_true, ExtTreeSet.contains_iff_mem]
  rcases excludes_apply.mp hexcludes with hlisted | hcut
  · exact .inl (mem_of_mem_remap hcollects hdistinct (fun _ h => mem_listedKeys.mpr (.inl h)) hr
      hmoves hlisted)
  · obtain ⟨o, ho, hbefore, hsame⟩ := (hcollects.cutoff new).mp hcut
    have hkey : o.1 = r.1 := hdistinct o.1 r.1 new (.inl (List.mem_map_of_mem ho))
      (.inl (List.mem_map_of_mem hr)) (.inl ⟨o, ho, rfl, hsame⟩) (.inl ⟨r, hr, rfl, hmoves⟩)
    apply Or.inr
    rw [← hkey] at hfirst
    exact beforeCutoff_of_firstOf ho hfirst hbefore

end Policy

/-! ## The whole migration of a policy -/

omit [AddressHash] [Blake3] [Checksum] in
lemma wp_write {effect : PolicyFiles → PolicyFiles} {Q : PolicyFiles → Prop} {files : PolicyFiles}
    (h : ∀ faults, Q (effect { files with faults := faults })) :
    wp (PolicyFiles.write effect) (fun _ files' => Q files') (fun _ _ => True) files := by
  unfold PolicyFiles.write
  rw [wp_bind, wp_get, wp_bind, wp_set]
  cases files.faults.headD none with
  | none => exact h _
  | some fault =>
    obtain ⟨applied, error⟩ := fault
    rw [wp_bind, wp_modify]
    trivial

variable [ScopeJson]

/-- An accepted policy is replaced by its translation, behind the next fence. -/
lemma wp_migrateScope {source : Root} (hscope : source.scope = some scope) (cancels : List Bool)
    (files : PolicyFiles) :
    wp (migrateScope source cancels)
      (fun _ files' => ∃ t, Collects scope (listedKeys scope) (history source.chain) t
        ∧ files'.scope = some (t.apply scope) ∧ files'.revision = some (scope.revision + 1))
      (fun _ _ => True) files := by
  unfold migrateScope
  rw [hscope]
  simp only
  rw [wp_guard]
  refine ⟨fun _ => trivial, fun _ => ?_⟩
  rw [wp_guard]
  refine ⟨fun _ => trivial, fun _ => ?_⟩
  rw [wp_guard]
  refine ⟨fun _ => trivial, fun _ => ?_⟩
  rw [wp_bind]
  apply wp_write
  intro faults₁
  rw [wp_bind, wp_lift]
  refine ⟨fun sequences hsequences => ?_, fun _ _ => trivial⟩
  obtain ⟨rfl, -, -⟩ := segmentSequences_eq_ok hsequences
  have htranslate := wp_translateSegments (d := source.chain) cancels 0 source.chain.segments.size
    (collects_nil : Collects scope (listedKeys scope) (occurrences source.chain 0) {})
  rw [Nat.zero_add] at htranslate
  cases hrun : (translateSegments scope (listedKeys scope) source.chain
      (List.range' 0 source.chain.segments.size) cancels).exec {} with
  | mk result t =>
    cases result with
    | error error => trivial
    | ok u =>
      have hcollects := wp_eq_ok htranslate hrun
      simp only [wp_bind, wp_lift]
      refine ⟨fun _ _ => ?_, fun _ _ => trivial⟩
      rw [wp_guard]
      refine ⟨fun _ => trivial, fun _ => ?_⟩
      rw [wp_guard]
      refine ⟨fun _ => trivial, fun _ => ?_⟩
      rw [wp_bind]
      apply wp_write
      intro faults₂
      apply wp_write
      intro faults₃
      exact ⟨t, hcollects, rfl, rfl⟩

/-- Migrating a policy never changes the consent for a record of the source: its fence advances,
and every decodable record keeps its place in the exclusions and the ledgers under its new key. -/
theorem scope_keeps_consent {source : Root} (hscope : source.scope = some scope)
    (hhash : ∀ r ∈ history source.chain, ∀ r' ∈ history source.chain, r.1 = r'.1 →
      r.2.bytes = r'.2.bytes)
    {cancels : List Bool} {files files' : PolicyFiles}
    (hrun : (migrateScope source cancels).exec files = (.ok (), files')) :
    ∃ migrated, files'.scope = some migrated ∧ files'.revision = some migrated.revision
      ∧ scope.revision < migrated.revision ∧ migrated.receivedBlobs = scope.receivedBlobs
      ∧ ∀ r ∈ history source.chain, ∀ first, firstOf (history source.chain) r.1 = some first →
        ∀ new, Moves r new →
          (scope.excludes r.1 first.segment = true → ∀ n, migrated.excludes new n = true)
          ∧ (Distinct source.chain scope → SameConsent scope migrated r.1 new first) := by
  obtain ⟨t, hcollects, hfile, hfence⟩ := wp_eq_ok (wp_migrateScope hscope cancels files) hrun
  refine ⟨t.apply scope, hfile, hfence, Nat.lt_succ_self _, rfl, ?_⟩
  intro r hr first hfirst new hmoves
  have hsame : ∀ r' ∈ history source.chain, r'.1 = r.1 → r'.2.bytes = r.2.bytes :=
    fun r' hr' hkey => hhash r' hr' r hr hkey
  have hwithheld := excludes_of_excludes hcollects hr hmoves hsame hfirst
  refine ⟨hwithheld, fun hdistinct => ⟨fun segment => ?_, ?_, ?_⟩⟩
  · rw [Bool.eq_iff_iff]
    exact ⟨excludes_of_excludes_apply hcollects hdistinct hr hmoves hfirst,
      fun hexcludes => hwithheld hexcludes segment⟩
  · have hlisted : ∀ key ∈ scope.received, key ∈ listedKeys scope :=
      fun _ h => mem_listedKeys.mpr (.inr (.inl h))
    exact ⟨mem_of_mem_remap hcollects hdistinct hlisted hr hmoves,
      mem_remap_of_mem hcollects hlisted hr hmoves hsame⟩
  · have hlisted : ∀ key ∈ scope.locals, key ∈ listedKeys scope :=
      fun _ h => mem_listedKeys.mpr (.inr (.inr h))
    exact ⟨mem_of_mem_remap hcollects hdistinct hlisted hr hmoves,
      mem_remap_of_mem hcollects hlisted hr hmoves hsame⟩

end EditChain.Migration

namespace EditChain.Migration

open Fallible Store Sync

section Messages

local instance policyAddresses : AddressHash := messageAddresses
local instance policyPostcard : Postcard messagePayloads := messagePostcard
local instance policyDigests : Blake3 := messageDigests
local instance policyChecksum : Checksum := crc32cChecksum
local instance policyJson : ScopeJson := ⟨fun _ => 0⟩

/-- The message below a cutoff, and listed as received. -/
def messagePolicy : Root :=
  let key : RecordKey := ⟨messageId, Blake3.hash messageV1⟩
  { chain := { Directory.empty with
      segments := (∅ : Std.ExtTreeMap ℕ SegmentFile).insert 0
        ⟨frameBytes 0 [⟨0, messageV1⟩], (0, 0), 0⟩ }
    scope := some
      { space := "space"
        received := (∅ : Std.ExtTreeSet RecordKey).insert key
        cutoff := some ⟨1, 0⟩ } }

/-- The message is withheld under its new key too. -/
theorem scope_keeps_consent_message : ∃ files migrated,
    (migrateScope messagePolicy []).exec {} = (.ok (), files) ∧ files.scope = some migrated
      ∧ files.revision = some 1
      ∧ ∀ n, migrated.excludes ⟨messageId, Blake3.hash messageV3⟩ n = true := by
  have hok : ((migrateScope messagePolicy []).exec {}).1.isOk = true := by decide +kernel
  cases hrun : (migrateScope messagePolicy []).exec {} with
  | mk result files =>
    rw [hrun] at hok
    cases result with
    | error error => cases hok
    | ok u =>
      have hhash : ∀ r ∈ history messagePolicy.chain, ∀ r' ∈ history messagePolicy.chain,
          r.1 = r'.1 → r.2.bytes = r'.2.bytes := by decide +kernel
      obtain ⟨migrated, hscope, hrevision, -, -, hkeeps⟩ := scope_keeps_consent rfl hhash hrun
      have hrecord : (⟨messageId, Blake3.hash messageV1⟩, ⟨messageV1, 0⟩)
          ∈ history messagePolicy.chain := by decide +kernel
      have hfirst : firstOf (history messagePolicy.chain) ⟨messageId, Blake3.hash messageV1⟩
          = some ⟨messageV1, 0⟩ := by decide +kernel
      have hmoves : Moves (⟨messageId, Blake3.hash messageV1⟩, ⟨messageV1, 0⟩)
          ⟨messageId, Blake3.hash messageV3⟩ := ⟨messageV3, by decide +kernel, rfl⟩
      have hwithheld := (hkeeps _ hrecord _ hfirst _ hmoves).1 (by decide +kernel)
      refine ⟨files, migrated, rfl, hscope, ?_, hwithheld⟩
      have hfence : ((migrateScope messagePolicy []).exec {}).2.revision = some 1 := by
        decide +kernel
      rw [hrun] at hfence
      exact hfence

end Messages

end EditChain.Migration
