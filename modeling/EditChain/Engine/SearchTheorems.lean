import EditChain.Activity.FieldsTheorems
import EditChain.Engine.MetaTheorems

/-!
# A literal search is complete

Resolving the fields of an accepted operation fails only as the blob store does, and a query for one
field agrees with the list of all of them. A search marks the first occurrence in every field whose
bytes are available and keeps every other field as a gap, so that over all pages no occurrence is
overlooked: what was not found is either not there or behind a gap.
-/

namespace EditChain.Engine

open Activity (ContentField ContentReference ContentResult ContentValue FieldSource payloads)
open Fallible
open Migration (AddressHash)

/-! ## One operation -/

/-- The available bytes of a result. -/
def bytesOf (content : ContentResult RecordRef) : Option Bytes :=
  match content.value with
  | .available bytes => some bytes
  | _ => none

/-- The match in a result. -/
def matchOf (text : Bytes) (content : ContentResult RecordRef) : Option FieldMatch :=
  (bytesOf content).bind fun bytes => (Occurrence.first text bytes).map fun start =>
    ⟨content.field, start, start + text.length⟩

/-- A match is at the first occurrence of the text in the bytes of a result. -/
def FieldMatch.Marks (text : Bytes) (content : ContentResult RecordRef) (found : FieldMatch) :
    Prop :=
  found.field = content.field ∧ found.stop = found.start + text.length
    ∧ ∃ bytes, bytesOf content = some bytes ∧ text <+: bytes.drop found.start
      ∧ ∀ other < found.start, ¬ text <+: bytes.drop other

lemma matchOf_eq_some {text : Bytes} (htext : text ≠ []) {content : ContentResult RecordRef}
    {found : FieldMatch} : matchOf text content = some found ↔ found.Marks text content := by
  unfold matchOf FieldMatch.Marks
  rw [Option.bind_eq_some_iff]
  constructor
  · intro ⟨bytes, hbytes, hsome⟩
    obtain ⟨start, hstart, hfound⟩ := Option.map_eq_some_iff.mp hsome
    rw [← hfound]
    exact ⟨rfl, rfl, bytes, hbytes, (Occurrence.first_eq_some htext).mp hstart⟩
  · intro ⟨hfield, hstop, bytes, hbytes, hoccurs⟩
    refine ⟨bytes, hbytes, Option.map_eq_some_iff.mpr
      ⟨found.start, (Occurrence.first_eq_some htext).mpr hoccurs, ?_⟩⟩
    rw [← hfield, ← hstop]

/-- A result has no match if it has no occurrence. -/
lemma matchOf_eq_none {text : Bytes} (htext : text ≠ []) {content : ContentResult RecordRef} :
    matchOf text content = none
      ↔ ∀ bytes, bytesOf content = some bytes → ¬ text <:+: bytes := by
  unfold matchOf
  rw [Option.bind_eq_none_iff]
  constructor
  · intro h bytes hbytes
    exact (Occurrence.first_eq_none htext).mp (Option.map_eq_none_iff.mp (h bytes hbytes))
  · intro h bytes hbytes
    exact Option.map_eq_none_iff.mpr ((Occurrence.first_eq_none htext).mpr (h bytes hbytes))

/-- There is no match if there is no occurrence. -/
lemma matches_eq_nil {text : Bytes} (htext : text ≠ [])
    {results : List (ContentResult RecordRef)} :
    results.filterMap (matchOf text) = []
      ↔ ¬ ∃ content ∈ results, ∃ bytes, bytesOf content = some bytes ∧ text <:+: bytes := by
  rw [List.filterMap_eq_nil_iff]
  constructor
  · intro h ⟨content, hcontent, bytes, hbytes, hoccurs⟩
    exact (matchOf_eq_none htext).mp (h content hcontent) bytes hbytes hoccurs
  · intro h content hcontent
    exact (matchOf_eq_none htext).mpr fun bytes hbytes hoccurs =>
      h ⟨content, hcontent, bytes, hbytes, hoccurs⟩

/-- The fields with a match are in the order of the results. -/
lemma sublist_matches {text : Bytes} (htext : text ≠ [])
    (results : List (ContentResult RecordRef)) :
    ((results.filterMap (matchOf text)).map FieldMatch.field).Sublist
      (results.map ContentResult.field) := by
  induction results with
  | nil => exact List.Sublist.slnil
  | cons content rest ih =>
    cases hmatch : matchOf text content with
    | none =>
      rw [List.filterMap_cons_none hmatch]
      exact ih.cons _
    | some found =>
      obtain ⟨hfield, -⟩ := (matchOf_eq_some htext).mp hmatch
      rw [List.filterMap_cons_some hmatch, List.map_cons, List.map_cons, hfield]
      exact ih.cons_cons _

variable [AddressHash] {resolve : ContentReference → Except IoError Activity.BlobResolution}

/-- The value of a resolved field does not depend on the name it is asked for under. -/
lemma resolveField_eq_ok {entry : Activity.HistoryEntry RecordRef} {field : ContentField}
    {source : FieldSource} {content : ContentResult RecordRef}
    (h : Activity.resolveField resolve entry field source = .ok content) :
    ∃ value, content = ⟨entry.recordRef, field, source.named, value⟩
      ∧ ∀ other, Activity.resolveField resolve entry other source
        = .ok ⟨entry.recordRef, other, source.named, value⟩ := by
  unfold Activity.resolveField at h ⊢
  cases hnamed : source.named with
  | some reference =>
    rw [hnamed] at h
    obtain ⟨value, hvalue, h⟩ := bind_eq_ok.mp h
    cases h
    exact ⟨value, rfl, fun other => bind_eq_ok.mpr ⟨value, hvalue, rfl⟩⟩
  | none =>
    rw [hnamed] at h
    cases source with
    | payload payload =>
      cases payload with
      | empty =>
        cases h
        exact ⟨_, rfl, fun _ => rfl⟩
      | inline bytes =>
        cases h
        exact ⟨_, rfl, fun _ => rfl⟩
      | blob blob => cases hnamed
    | bytes bytes =>
      cases h
      exact ⟨_, rfl, fun _ => rfl⟩
    | reference found => cases hnamed
    | notRecorded =>
      cases h
      exact ⟨_, rfl, fun _ => rfl⟩

/-- A resolved field keeps its name. -/
lemma field_of_resolveField {entry : Activity.HistoryEntry RecordRef} {field : ContentField}
    {source : FieldSource} {content : ContentResult RecordRef}
    (h : Activity.resolveField resolve entry field source = .ok content) :
    content.field = field := by
  obtain ⟨value, hcontent, -⟩ := resolveField_eq_ok h
  rw [hcontent]

/-- The loop over the fields collects matches and gaps. -/
lemma searchFields_eq (text : Bytes) {entry : Activity.HistoryEntry RecordRef}
    {fields : List (ContentField × FieldSource)} {results : List (ContentResult RecordRef)}
    (h : fields.mapM (fun field => Activity.resolveField resolve entry field.1 field.2)
      = .ok results) (found : List FieldMatch) (unavailable : List (ContentResult RecordRef)) :
    searchFields resolve text entry fields found unavailable
      = .ok (found ++ results.filterMap (matchOf text),
          unavailable ++ results.filter fun content => (bytesOf content).isNone) := by
  induction fields generalizing results found unavailable with
  | nil =>
    rw [List.mapM_nil] at h
    cases h
    rw [List.filterMap_nil, List.filter_nil, List.append_nil, List.append_nil]
    rfl
  | cons first rest ih =>
    obtain ⟨field, source⟩ := first
    rw [List.mapM_cons] at h
    obtain ⟨content, hcontent, h⟩ := bind_eq_ok.mp h
    obtain ⟨others, hothers, h⟩ := bind_eq_ok.mp h
    cases h
    have hname : content.field = field := field_of_resolveField hcontent
    -- a value without bytes is kept as a gap, whatever the reason
    have hgap : bytesOf content = none →
        searchFields resolve text entry rest found (unavailable ++ [content])
          = .ok (found ++ (content :: others).filterMap (matchOf text),
            unavailable ++ (content :: others).filter fun content => (bytesOf content).isNone) := by
      intro hnone
      have hmatch : matchOf text content = none := by
        unfold matchOf
        rw [hnone]
        rfl
      have hkept : (bytesOf content).isNone = true := by
        rw [hnone]
        rfl
      rw [ih hothers, List.filterMap_cons_none hmatch, List.filter_cons, if_pos hkept,
        List.append_assoc, List.singleton_append]
    unfold searchFields
    refine bind_eq_ok.mpr ⟨content, hcontent, ?_⟩
    cases hvalue : content.value with
    | available bytes =>
      have hbytes : bytesOf content = some bytes := by
        unfold bytesOf
        rw [hvalue]
      have hkept : ¬ (bytesOf content).isNone = true := by
        rw [hbytes]
        exact Bool.false_ne_true
      dsimp only
      cases hfirst : Occurrence.first text bytes with
      | some start =>
        have hmatch : matchOf text content = some ⟨field, start, start + text.length⟩ := by
          unfold matchOf
          rw [hbytes, ← hname]
          show (Occurrence.first text bytes).map _ = _
          rw [hfirst]
          rfl
        dsimp only
        rw [ih hothers, List.filterMap_cons_some hmatch, List.filter_cons, if_neg hkept,
          List.append_assoc, List.singleton_append]
      | none =>
        have hmatch : matchOf text content = none := by
          unfold matchOf
          rw [hbytes]
          show (Occurrence.first text bytes).map _ = _
          rw [hfirst]
          rfl
        dsimp only
        rw [ih hothers, List.filterMap_cons_none hmatch, List.filter_cons, if_neg hkept]
    | notRecorded => exact hgap (by unfold bytesOf; rw [hvalue])
    | missing => exact hgap (by unfold bytesOf; rw [hvalue])
    | corrupt => exact hgap (by unfold bytesOf; rw [hvalue])
    | unresolvable => exact hgap (by unfold bytesOf; rw [hvalue])

/-! ## The operations of a page -/

variable (resolve)

/-- The resolved fields of an entry. -/
def resultsOf (entry : HistoryEntry (Migration.Op payloads) ContentReference) :
    List (ContentResult RecordRef) :=
  (Activity.contents resolve entry.evidence).toOption.getD []

/-- The hit of an entry, if it has a match. -/
def hitOf (text : Bytes) (entry : HistoryEntry (Migration.Op payloads) ContentReference) :
    Option SearchHit :=
  let found := (resultsOf resolve entry).filterMap (matchOf text)
  if found = [] then none else some ⟨entry.recordRef, found⟩

/-- The gaps of an entry. -/
def gapsOf (entry : HistoryEntry (Migration.Op payloads) ContentReference) :
    List (ContentResult RecordRef) :=
  (resultsOf resolve entry).filter fun content => (bytesOf content).isNone

variable {resolve}

/-- The loop over the operations collects hits and gaps, as long as all fields are resolved. -/
lemma searchEntries_eq (text : Bytes)
    {entries : List (HistoryEntry (Migration.Op payloads) ContentReference)}
    (h : ∀ entry ∈ entries, ∃ results, Activity.contents resolve entry.evidence = .ok results)
    (hits : List SearchHit) (unavailable : List (ContentResult RecordRef)) :
    searchEntries resolve text entries hits unavailable
      = .ok (hits ++ entries.filterMap (hitOf resolve text),
          unavailable ++ entries.flatMap (gapsOf resolve)) := by
  induction entries generalizing hits unavailable with
  | nil =>
    rw [List.filterMap_nil, List.flatMap_nil, List.append_nil, List.append_nil]
    rfl
  | cons entry rest ih =>
    obtain ⟨results, hresults⟩ := h entry (List.mem_cons_self ..)
    have hof : resultsOf resolve entry = results := by
      unfold resultsOf
      rw [hresults]
      rfl
    have hrest := ih fun other hother => h other (List.mem_cons_of_mem _ hother)
    unfold searchEntries
    refine bind_eq_ok.mpr ⟨_, searchFields_eq text hresults [] unavailable, ?_⟩
    dsimp only
    rw [List.nil_append, hrest, List.flatMap_cons, List.append_assoc]
    have hgaps : gapsOf resolve entry
        = results.filter fun content => (bytesOf content).isNone := by
      unfold gapsOf
      rw [hof]
    rw [← hgaps]
    by_cases hnone : results.filterMap (matchOf text) = []
    · have hhit : hitOf resolve text entry = none := by
        unfold hitOf
        rw [hof]
        exact if_pos hnone
      rw [if_pos hnone, List.filterMap_cons_none hhit]
    · have hhit : hitOf resolve text entry
          = some ⟨entry.recordRef, results.filterMap (matchOf text)⟩ := by
        unfold hitOf
        rw [hof]
        exact if_neg hnone
      rw [if_neg hnone, List.filterMap_cons_some hhit, List.append_assoc, List.singleton_append]

/-! ## One field -/

/-- The results of a list of fields are those of its fields. -/
lemma mem_results {entry : Activity.HistoryEntry RecordRef}
    {fields : List (ContentField × FieldSource)} {results : List (ContentResult RecordRef)}
    (h : fields.mapM (fun field => Activity.resolveField resolve entry field.1 field.2)
      = .ok results) {content : ContentResult RecordRef} (hcontent : content ∈ results) :
    ∃ field ∈ fields, Activity.resolveField resolve entry field.1 field.2 = .ok content := by
  induction fields generalizing results with
  | nil =>
    rw [List.mapM_nil] at h
    cases h
    exact absurd hcontent List.not_mem_nil
  | cons first rest ih =>
    rw [List.mapM_cons] at h
    obtain ⟨found, hfound, h⟩ := bind_eq_ok.mp h
    obtain ⟨others, hothers, h⟩ := bind_eq_ok.mp h
    cases h
    rcases List.mem_cons.mp hcontent with hsame | hlater
    · rw [hsame]
      exact ⟨first, List.mem_cons_self .., hfound⟩
    · obtain ⟨field, hfield, hresolve⟩ := ih hothers hlater
      exact ⟨field, List.mem_cons_of_mem _ hfield, hresolve⟩

/-- Each of the fields has a result. -/
lemma exists_result {entry : Activity.HistoryEntry RecordRef}
    {fields : List (ContentField × FieldSource)} {results : List (ContentResult RecordRef)}
    (h : fields.mapM (fun field => Activity.resolveField resolve entry field.1 field.2)
      = .ok results) {field : ContentField × FieldSource} (hfield : field ∈ fields) :
    ∃ content ∈ results, Activity.resolveField resolve entry field.1 field.2 = .ok content := by
  induction fields generalizing results with
  | nil => exact absurd hfield List.not_mem_nil
  | cons first rest ih =>
    rw [List.mapM_cons] at h
    obtain ⟨found, hfound, h⟩ := bind_eq_ok.mp h
    obtain ⟨others, hothers, h⟩ := bind_eq_ok.mp h
    cases h
    rcases List.mem_cons.mp hfield with hsame | hlater
    · rw [hsame]
      exact ⟨found, List.mem_cons_self .., hfound⟩
    · obtain ⟨content, hcontent, hresolve⟩ := ih hothers hlater
      exact ⟨content, List.mem_cons_of_mem _ hcontent, hresolve⟩

/-- The results have the names of the fields, in their order. -/
lemma fields_of_results {entry : Activity.HistoryEntry RecordRef}
    {fields : List (ContentField × FieldSource)} {results : List (ContentResult RecordRef)}
    (h : fields.mapM (fun field => Activity.resolveField resolve entry field.1 field.2)
      = .ok results) : results.map ContentResult.field = fields.map Prod.fst := by
  induction fields generalizing results with
  | nil =>
    rw [List.mapM_nil] at h
    cases h
    rfl
  | cons first rest ih =>
    rw [List.mapM_cons] at h
    obtain ⟨found, hfound, h⟩ := bind_eq_ok.mp h
    obtain ⟨others, hothers, h⟩ := bind_eq_ok.mp h
    cases h
    rw [List.map_cons, List.map_cons, ih hothers, field_of_resolveField hfound]

lemma fields_of_contents {entry : Activity.HistoryEntry RecordRef}
    {results : List (ContentResult RecordRef)}
    (h : Activity.contents resolve entry = .ok results) :
    results.map ContentResult.field
      = (Activity.queryFields entry.operation.kind).map Prod.fst :=
  fields_of_results h

/-- No field is listed twice. -/
lemma nodup_queryFields (kind : Migration.OpKind payloads OpId) :
    ((Activity.queryFields kind).map Prod.fst).Nodup := by
  cases kind with
  | activity record =>
    have hfields := record.kind.nodup_fields.map
      fun _ _ (h : ContentField.record _ = .record _) => ContentField.record.inj h
    rw [List.map_map] at hfields
    cases hkind : record.kind with
    | file file =>
      rw [hkind] at hfields
      simp only [Activity.queryFields, hkind, List.map_append, List.map_map, List.nodup_append,
        Function.comp_def]
      refine ⟨hfields, by simp, fun field hfield other hother => ?_⟩
      obtain ⟨payload, -, rfl⟩ := List.mem_map.mp hfield
      simp only [List.map_cons, List.map_nil, List.mem_cons, List.not_mem_nil, or_false] at hother
      rcases hother with rfl | rfl | rfl <;> simp
    | _ =>
      rw [hkind] at hfields
      simp only [Activity.queryFields, hkind, List.append_nil, List.map_map]
      exact hfields
  | gitCommit imported commit =>
    have himported := Activity.Kind.nodup_map_zipIdx commit.importedRefs
      (f := ContentField.gitImportedRef) fun _ _ h => ContentField.gitImportedRef.inj h
    have hlive := Activity.Kind.nodup_map_zipIdx commit.liveRefs (f := ContentField.gitLiveRef)
      fun _ _ h => ContentField.gitLiveRef.inj h
    simp only [Activity.queryFields, Activity.payloadFields, List.map_append, List.map_map,
      List.nodup_append, Function.comp_def, List.map_cons, List.map_nil]
    refine ⟨⟨by simp, himported, fun field hfield other hother hsame => ?_⟩, hlive,
      fun field hfield other hother hsame => ?_⟩
    · obtain ⟨reference, -, hname⟩ := List.mem_map.mp hother
      rw [hsame, ← hname] at hfield
      simp at hfield
    · obtain ⟨reference, -, hname⟩ := List.mem_map.mp hother
      rw [hsame, ← hname] at hfield
      simp at hfield
  | plain payload => cases payload <;> simp [Activity.queryFields, Activity.payloadFields]
  | note targetIds note => simp [Activity.queryFields, Activity.payloadFields]
  | gitLink source link =>
    cases hlink : link.kind <;>
      simp [Activity.queryFields, Activity.payloadFields, hlink]

/-- A query for one field has the value that the list of all fields has for it; a field that is not
listed is not recorded. -/
lemma fieldContent_agrees {entry : Activity.HistoryEntry RecordRef}
    {results : List (ContentResult RecordRef)}
    (h : Activity.contents resolve entry = .ok results) (field : ContentField) :
    ∃ content, Activity.fieldContent resolve entry field = .ok content
      ∧ content.recordRef = entry.recordRef ∧ content.field = field
      ∧ (∀ listed ∈ results,
        listed.field = Activity.selectedField entry.operation.kind field →
          content.value = listed.value ∧ content.reference = listed.reference)
      ∧ ((∀ listed ∈ results,
        listed.field ≠ Activity.selectedField entry.operation.kind field) →
          content.value = .notRecorded) := by
  have hall : (Activity.queryFields entry.operation.kind).mapM
      (fun field => Activity.resolveField resolve entry field.1 field.2) = .ok results := h
  unfold Activity.fieldContent
  generalize Activity.selectedField entry.operation.kind field = selected
  have hnodup := nodup_queryFields entry.operation.kind
  generalize Activity.queryFields entry.operation.kind = fields at hall hnodup ⊢
  dsimp only
  -- the first field of the name is the only one, since names do not repeat
  cases hfind : fields.find? _ with
  | none =>
    refine ⟨⟨entry.recordRef, field, none, .notRecorded⟩, rfl, rfl, rfl,
      fun listed hlisted hname => ?_, fun _ => rfl⟩
    obtain ⟨found, hfound, hresolve⟩ := mem_results hall hlisted
    have hno := List.find?_eq_none.mp hfind found hfound
    rw [field_of_resolveField hresolve] at hname
    exact absurd (decide_eq_true hname) hno
  | some found =>
    have hmem := List.mem_of_find?_eq_some hfind
    have hdecided := List.find?_some hfind
    have hselected : found.1 = selected := of_decide_eq_true hdecided
    obtain ⟨expected, hexpected, hresolve⟩ := exists_result hall hmem
    obtain ⟨value, hvalue, hnames⟩ := resolveField_eq_ok hresolve
    refine ⟨_, hnames field, rfl, rfl, fun listed hlisted hname => ?_, fun hnone => ?_⟩
    · -- the listed result is that of the same field
      obtain ⟨other, hother, hresult⟩ := mem_results hall hlisted
      have hfirst : other.1 = found.1 := by
        rw [hselected, ← hname]
        exact (field_of_resolveField hresult).symm
      have hsame : other = found := List.inj_on_of_nodup_map hnodup hother hmem hfirst
      rw [hsame, hresolve] at hresult
      cases hresult
      rw [hvalue]
      exact ⟨rfl, rfl⟩
    · have hfield := field_of_resolveField hresolve
      rw [hselected] at hfield
      exact absurd hfield (hnone expected hexpected)

end EditChain.Engine

namespace EditChain.Index.ChainQueries

open Activity (ContentField ContentReference ContentResult payloads)
open Core Fallible Store
open Engine
open Migration (AddressHash)

variable [AddressHash] [Checksum] [Blake3]

local instance searchedSchema : IndexSchema (Migration.Op payloads) ContentReference IndexKey :=
  recordedSchema

variable {queries : ChainQueries (Migration.Op payloads) ContentReference IndexKey} {d : Directory}
  {resolve : ContentReference → Except IoError Activity.BlobResolution}

/-! ## Found operations -/

omit [Checksum] [Blake3] in
/-- The indexed availability of the references is the evidence of an entry. -/
lemma indexedContent_of_statuses {content : ContentIndex ContentReference}
    {op : Migration.Op payloads} {statuses : List (ContentReference × ContentState)}
    (h : (Activity.references op).mapM (State.statusOf content) = .ok statuses) :
    Activity.indexedContent (fun reference => (content.status reference).map contentState) op
      = .ok (statuses.map fun status => ⟨status.1, contentState status.2⟩) := by
  unfold Activity.indexedContent
  generalize Activity.references op = references at h ⊢
  induction references generalizing statuses with
  | nil =>
    rw [List.mapM_nil] at h
    cases h
    rfl
  | cons reference rest ih =>
    rw [List.mapM_cons] at h ⊢
    obtain ⟨status, hstatus, h⟩ := bind_eq_ok.mp h
    obtain ⟨others, hothers, h⟩ := bind_eq_ok.mp h
    cases h
    refine bind_eq_ok.mpr ⟨⟨status.1, contentState status.2⟩, ?_,
      bind_eq_ok.mpr ⟨_, ih hothers, rfl⟩⟩
    unfold State.statusOf at hstatus
    unfold Activity.status
    cases hstate : content.status reference with
    | none =>
      rw [hstate] at hstatus
      cases hstatus
    | some state =>
      rw [hstate] at hstatus
      cases hstatus
      beta_reduce
      rw [hstate]
      rfl

/-- What is found is an accepted operation with the indexed availability of its content. -/
lemma content_of_operation {id : OpId}
    {entry : HistoryEntry (Migration.Op payloads) ContentReference}
    (h : queries.operation d id = .ok (.found entry)) :
    (Activity.references entry.operation).mapM (State.statusOf queries.index.state.content)
      = .ok entry.content := by
  unfold operation at h
  obtain ⟨variants, -, h⟩ := bind_eq_ok.mp h
  cases hget : queries.index.get id with
  | none =>
    rw [hget] at h
    dsimp only at h
    split at h
    · cases h
    · cases h
  | some found =>
    rw [hget] at h
    dsimp only at h
    split at h
    · obtain ⟨content, hcontent, h⟩ := bind_eq_ok.mp h
      obtain ⟨listed, hlisted, h⟩ := bind_eq_ok.mp h
      cases h
      have hchain : queries.index.state.tail.chain.get id = some found := hget
      unfold State.contentOf at hcontent
      rw [hchain] at hcontent
      obtain ⟨statuses, hstatuses, hcontent⟩ := bind_eq_ok.mp hcontent
      cases hcontent
      cases hlisted
      exact hstatuses
    · cases h

/-- The evidence of a found entry is what the index keeps for its operation. -/
lemma evidence_of_operation {id : OpId}
    {entry : HistoryEntry (Migration.Op payloads) ContentReference}
    (h : queries.operation d id = .ok (.found entry)) :
    Activity.historyEntry (fun reference =>
        (queries.index.state.content.status reference).map contentState) entry.recordRef
      entry.operation = .ok entry.evidence := by
  have hcontent := indexedContent_of_statuses (content_of_operation h)
  exact bind_eq_ok.mpr ⟨_, hcontent, rfl⟩

/-- The fields of a found entry are resolved if the blob store answers. -/
lemma contents_total (hresolve : ∀ reference, ∃ found, resolve reference = .ok found) {id : OpId}
    {entry : HistoryEntry (Migration.Op payloads) ContentReference}
    (h : queries.operation d id = .ok (.found entry)) :
    Activity.contents resolve entry.evidence = .ok (resultsOf resolve entry) := by
  cases hcontents : Activity.contents resolve entry.evidence with
  | ok results =>
    unfold resultsOf
    rw [hcontents]
    rfl
  | error error =>
    obtain ⟨reference, herror⟩ := Activity.contents_eq_error (evidence_of_operation h) hcontents
    obtain ⟨found, hfound⟩ := hresolve reference
    rw [hfound] at herror
    cases herror

/-! ## Pages of a search -/

variable [Schema (Migration.Op payloads)] {truth : ContentReference → ContentState}

/-- The hits of one identity. -/
def hitsAt (queries : ChainQueries (Migration.Op payloads) ContentReference IndexKey)
    (d : Directory) (resolve : ContentReference → Except IoError Activity.BlobResolution)
    (text : Bytes) (id : OpId) : List SearchHit :=
  (queries.entryAt d id).toList.filterMap (hitOf resolve text)

/-- The gaps of one identity. -/
def gapsAt (queries : ChainQueries (Migration.Op payloads) ContentReference IndexKey)
    (d : Directory) (resolve : ContentReference → Except IoError Activity.BlobResolution)
    (id : OpId) : List (ContentResult Engine.RecordRef) :=
  (queries.entryAt d id).toList.flatMap (gapsOf resolve)

/-- The page of a search of a page of identities. -/
def searchPage (queries : ChainQueries (Migration.Op payloads) ContentReference IndexKey)
    (d : Directory) (resolve : ContentReference → Except IoError Activity.BlobResolution)
    (text : Bytes) (found : List OpId × Option OpId) : SearchPage :=
  ⟨found.1.flatMap (queries.hitsAt d resolve text), found.1.flatMap (queries.gapsAt d resolve),
    (found.1.filterMap (queries.entryAt d)).length, found.2⟩

omit [Schema (Migration.Op payloads)] in
lemma filterMap_entries {β : Type} (ids : List OpId)
    (f : HistoryEntry (Migration.Op payloads) ContentReference → Option β) :
    (ids.filterMap (queries.entryAt d)).filterMap f
      = ids.flatMap fun id => (queries.entryAt d id).toList.filterMap f := by
  induction ids with
  | nil => rfl
  | cons id rest ih =>
    rw [List.flatMap_cons, ← ih]
    cases hentry : queries.entryAt d id with
    | none =>
      rw [List.filterMap_cons_none hentry]
      rfl
    | some entry =>
      rw [List.filterMap_cons_some hentry, Option.toList_some, ← List.filterMap_append,
        List.singleton_append]

lemma search_page (h : queries.index.state.Mirrors d truth)
    (hresolve : ∀ reference, ∃ found, resolve reference = .ok found) {text : Bytes}
    (htext : text ≠ [] ∧ text.length ≤ 16384) (key : Option IndexKey) (after : Option OpId)
    {limit : ℕ} (hlimit : 1 ≤ limit ∧ limit ≤ 1000) :
    queries.search d resolve text key ⟨after, limit⟩
      = .ok (queries.searchPage d resolve text
          (Paging.page (queries.candidates key) after limit)) := by
  have hadmitted : ¬ (text = [] ∨ 16384 < text.length) := by
    rintro (hnil | hlong)
    · exact htext.1 hnil
    · omega
  -- the entries of the page were found, so all their fields are resolved
  have htotal : ∀ entry ∈ (Paging.page (queries.candidates key) after limit).1.filterMap
      (queries.entryAt d), ∃ results, Activity.contents resolve entry.evidence = .ok results := by
    intro entry hentry
    obtain ⟨id, -, hsome⟩ := List.mem_filterMap.mp hentry
    exact ⟨_, contents_total hresolve (entryAt_eq_some.mp hsome)⟩
  unfold search
  rw [if_neg hadmitted, history_page h key after hlimit]
  refine bind_eq_ok.mpr ⟨_, rfl, bind_eq_ok.mpr ⟨_, searchEntries_eq text htotal [] [], ?_⟩⟩
  dsimp only [List.nil_append]
  rw [filterMap_entries, flatMap_entries]
  rfl

/-! ## What a search finds -/

/-- The resolved fields of an accepted operation. -/
def resultsAt (queries : ChainQueries (Migration.Op payloads) ContentReference IndexKey)
    (d : Directory) (resolve : ContentReference → Except IoError Activity.BlobResolution)
    (id : OpId) : List (ContentResult Engine.RecordRef) :=
  (queries.entryAt d id).elim [] (resultsOf resolve)

/-- An accepted operation is found with its reference, and its fields are resolved. -/
lemma entryAt_of_get (h : queries.index.state.Mirrors d truth)
    (hresolve : ∀ reference, ∃ found, resolve reference = .ok found) {id : OpId}
    {op : Migration.Op payloads} (hget : queries.index.get id = some op) :
    ∃ entry, queries.entryAt d id = some entry ∧ entry.recordRef.operation = id
      ∧ queries.resultsAt d resolve id = resultsOf resolve entry
      ∧ queries.contents d resolve id = .ok (.found (resultsOf resolve entry)) := by
  obtain ⟨-, encoded, statuses, -, -, hfound⟩ := operation_of_get h hget
  have hentry := entryAt_eq_some.mpr hfound
  refine ⟨_, hentry, rfl, ?_, ?_⟩
  · unfold resultsAt
    rw [hentry]
    rfl
  · exact bind_eq_ok.mpr ⟨_, hfound, bind_eq_ok.mpr ⟨_, contents_total hresolve hfound, rfl⟩⟩

/-- The hit of a candidate has its matches, if there are any. -/
lemma mem_hitsAt (h : queries.index.state.Mirrors d truth)
    (hresolve : ∀ reference, ∃ found, resolve reference = .ok found) {id : OpId}
    {op : Migration.Op payloads} (hget : queries.index.get id = some op) (text : Bytes)
    (hit : SearchHit) :
    hit ∈ queries.hitsAt d resolve text id
      ↔ (queries.resultsAt d resolve id).filterMap (matchOf text) ≠ []
        ∧ hit.fields = (queries.resultsAt d resolve id).filterMap (matchOf text)
        ∧ ∃ entry, queries.entryAt d id = some entry ∧ hit.recordRef = entry.recordRef := by
  obtain ⟨entry, hentry, -, hresults, -⟩ := entryAt_of_get h hresolve hget
  unfold hitsAt
  rw [hentry, hresults, Option.toList_some, List.mem_filterMap]
  unfold hitOf
  constructor
  · intro ⟨other, hother, hsome⟩
    rw [List.mem_singleton.mp hother] at hsome
    dsimp only at hsome
    split at hsome
    · cases hsome
    · next hne =>
      cases hsome
      exact ⟨hne, rfl, entry, rfl, rfl⟩
  · intro ⟨hne, hfields, other, hother, href⟩
    cases hother
    refine ⟨entry, List.mem_singleton_self entry, ?_⟩
    rw [← hfields, ← href]
    exact if_neg (by rw [hfields]; exact hne)

/-- The hits of candidates are in their order. -/
lemma sublist_hits (h : queries.index.state.Mirrors d truth)
    (hresolve : ∀ reference, ∃ found, resolve reference = .ok found) (text : Bytes)
    {key : Option IndexKey} {ids : List OpId} (hids : ∀ id ∈ ids, id ∈ queries.candidates key) :
    ((ids.flatMap (queries.hitsAt d resolve text)).map fun hit => hit.recordRef.operation).Sublist
      ids := by
  induction ids with
  | nil => exact List.Sublist.slnil
  | cons id rest ih =>
    have hrest := ih fun other hother => hids other (List.mem_cons_of_mem _ hother)
    obtain ⟨op, hget, -⟩ := (mem_candidates h key id).mp (hids id (List.mem_cons_self ..))
    obtain ⟨entry, hentry, hrecord, -, -⟩ := entryAt_of_get h hresolve hget
    have hhits : queries.hitsAt d resolve text id = (hitOf resolve text entry).toList := by
      unfold hitsAt
      rw [hentry]
      show List.filterMap (hitOf resolve text) [entry] = _
      cases hhit : hitOf resolve text entry with
      | none => rw [List.filterMap_cons_none hhit]; rfl
      | some hit => rw [List.filterMap_cons_some hhit]; rfl
    rw [List.flatMap_cons, List.map_append, hhits]
    -- the first candidate is dropped if it has no match
    unfold hitOf
    dsimp only
    split
    · exact hrest.cons _
    · rw [Option.toList_some, List.map_singleton, hrecord]
      exact hrest.cons_cons _

/-- The gaps of an accepted operation. -/
lemma mem_gapsAt (h : queries.index.state.Mirrors d truth)
    (hresolve : ∀ reference, ∃ found, resolve reference = .ok found) {id : OpId}
    {op : Migration.Op payloads} (hget : queries.index.get id = some op)
    (content : ContentResult Engine.RecordRef) :
    content ∈ queries.gapsAt d resolve id
      ↔ content ∈ queries.resultsAt d resolve id ∧ bytesOf content = none := by
  obtain ⟨entry, hentry, -, hresults, -⟩ := entryAt_of_get h hresolve hget
  unfold gapsAt gapsOf
  rw [hentry, hresults, Option.toList_some, List.flatMap_singleton, List.mem_filter,
    Option.isNone_iff_eq_none]

end EditChain.Index.ChainQueries

/-! ## Runs -/

namespace EditChain.Index.Setting

open Activity (ContentField ContentReference ContentResult payloads)
open Core Fallible Store
open Engine
open Migration (AddressHash)

variable [AddressHash] [Schema (Migration.Op payloads)] [Checksum] [Blake3]

local instance foundSchema : IndexSchema (Migration.Op payloads) ContentReference IndexKey :=
  recordedSchema

variable {root : String} {w : Setting (Migration.Op payloads) ContentReference IndexKey}
  {index : ChainIndex (Migration.Op payloads) ContentReference IndexKey}
  {resolve : ContentReference → Except IoError Activity.BlobResolution}

/-- Whatever happened before, as long as the blob store answers, the fields of an accepted operation
are resolved, and a query for one field agrees with the list: it has the value of the field that it
means, and a field that is not listed is not recorded. -/
theorem content_agrees_with_contents {d : Directory} {truth : ContentReference → ContentState}
    (hrun : Run root { directory := d, truth := truth } w) (hindex : w.handle = some index)
    (hresolve : ∀ reference, ∃ found, resolve reference = .ok found) {id : OpId}
    {op : Migration.Op payloads} (hget : index.get id = some op) :
    let queries : ChainQueries (Migration.Op payloads) ContentReference IndexKey := ⟨index⟩
    ∃ results, queries.contents w.directory resolve id = .ok (.found results)
      ∧ results.map ContentResult.field = (Activity.queryFields op.kind).map Prod.fst
      ∧ (results.map ContentResult.field).Nodup
      ∧ ∀ field, ∃ content, queries.content w.directory resolve id field = .ok (.found content)
        ∧ content.recordRef.operation = id ∧ content.field = field
        ∧ (∀ listed ∈ results, listed.field = Activity.selectedField op.kind field →
          content.value = listed.value ∧ content.reference = listed.reference)
        ∧ ((∀ listed ∈ results, listed.field ≠ Activity.selectedField op.kind field) →
          content.value = .notRecorded) := by
  intro queries
  have hmirrors : queries.index.state.Mirrors w.directory w.truth := Run.mirrors hrun hindex
  obtain ⟨-, encoded, statuses, -, -, hfound⟩ := ChainQueries.operation_of_get hmirrors hget
  have hcontents := ChainQueries.contents_total hresolve hfound
  refine ⟨_, bind_eq_ok.mpr ⟨_, hfound, bind_eq_ok.mpr ⟨_, hcontents, rfl⟩⟩,
    fields_of_contents hcontents, ?_, fun field => ?_⟩
  · rw [fields_of_contents hcontents]
    exact nodup_queryFields op.kind
  · obtain ⟨content, hcontent, hrecord, hname, hvalues⟩ := fieldContent_agrees hcontents field
    refine ⟨content, bind_eq_ok.mpr ⟨_, hfound, bind_eq_ok.mpr ⟨_, hcontent, rfl⟩⟩, ?_, hname,
      hvalues⟩
    rw [hrecord]
    rfl

/-- Whatever happened before, as long as the blob store answers, the pages of a search end,
whatever their limits, and count every candidate once. They have a hit, in the order of identities,
for exactly the accepted operations of which a field has available bytes with the text; each hit
marks the first occurrence in exactly those fields, in their order; and what else a field may hold
is listed as unavailable. -/
theorem search_complete {d : Directory} {truth : ContentReference → ContentState}
    (hrun : Run root { directory := d, truth := truth } w) (hindex : w.handle = some index)
    (hresolve : ∀ reference, ∃ found, resolve reference = .ok found) {text : Bytes}
    (htext : text ≠ [] ∧ text.length ≤ 16384) (key : Option IndexKey) :
    let queries : ChainQueries (Migration.Op payloads) ContentReference IndexKey := ⟨index⟩
    let selects := fun op : Migration.Op payloads =>
      ∀ fact ∈ key, fact ∈ keys op (Activity.references op)
    ∃ results : OpId → List (ContentResult Engine.RecordRef),
      (∀ id op, index.get id = some op →
        queries.contents w.directory resolve id = .ok (.found (results id)))
        ∧ ∀ limits : ℕ → ℕ, (∀ n, 1 ≤ limits n ∧ limits n ≤ 1000) →
          ∀ fuel, (queries.candidates key).length < fuel → ∃ before last,
            followPages (queries.search w.directory resolve text key) SearchPage.nextAfter limits
                fuel 0 none = .ok (before ++ [last])
              ∧ last.nextAfter = none
              ∧ ((before ++ [last]).map SearchPage.scanned).sum = (queries.candidates key).length
              ∧ (((before ++ [last]).flatMap SearchPage.hits).map
                fun hit => hit.recordRef.operation).Pairwise (· < ·)
              ∧ (∀ id, (∃ hit ∈ (before ++ [last]).flatMap SearchPage.hits,
                  hit.recordRef.operation = id)
                ↔ (∃ op, index.get id = some op ∧ selects op) ∧ ∃ content ∈ results id,
                  ∃ bytes, bytesOf content = some bytes ∧ text <:+: bytes)
              ∧ (∀ hit ∈ (before ++ [last]).flatMap SearchPage.hits,
                (∀ found, found ∈ hit.fields
                  ↔ ∃ content ∈ results hit.recordRef.operation, found.Marks text content)
                ∧ (hit.fields.map FieldMatch.field).Sublist
                  ((results hit.recordRef.operation).map ContentResult.field))
              ∧ ∀ content, content ∈ (before ++ [last]).flatMap SearchPage.unavailable
                ↔ ∃ id op, index.get id = some op ∧ selects op ∧ content ∈ results id
                  ∧ bytesOf content = none := by
  intro queries selects
  have hmirrors : queries.index.state.Mirrors w.directory w.truth := Run.mirrors hrun hindex
  have hsorted : (queries.candidates key).Pairwise (· < ·) := ChainQueries.pairwise_candidates key
  have hnext : ∀ found, (queries.searchPage w.directory resolve text found).nextAfter = found.2 :=
    fun _ => rfl
  have hhits : ∀ found, (queries.searchPage w.directory resolve text found).hits
      = found.1.flatMap (queries.hitsAt w.directory resolve text) := fun _ => rfl
  have hgaps : ∀ found, (queries.searchPage w.directory resolve text found).unavailable
      = found.1.flatMap (queries.gapsAt w.directory resolve) := fun _ => rfl
  refine ⟨queries.resultsAt w.directory resolve, fun id op hget => ?_,
    fun limits hlimits fuel hfuel => ?_⟩
  · obtain ⟨entry, -, -, hresults, hcontents⟩ :=
      ChainQueries.entryAt_of_get hmirrors hresolve hget
    rw [hresults]
    exact hcontents
  obtain ⟨cuts, cut, hpages, -, hcut, hall⟩ := followPages_complete hsorted
    (fun after limit hlimit => ChainQueries.search_page hmirrors hresolve htext key after hlimit)
    hnext hlimits hfuel
  refine ⟨_, _, hpages, hcut, ?_, ?_, fun id => ?_, fun hit hhit => ?_, fun content => ?_⟩
  · -- every candidate is found
    have hids := ChainQueries.ids_entries hmirrors fun id (hid : id ∈ queries.candidates key) => hid
    have hlength := congrArg List.length hids
    rw [List.length_map, ← hall, List.filterMap_flatMap, List.length_flatMap] at hlength
    rw [← hall, ← List.map_singleton, ← List.map_append, List.map_map]
    exact hlength
  · -- an operation has at most one hit
    rw [flatMap_pages hhits hall]
    exact hsorted.sublist (ChainQueries.sublist_hits hmirrors hresolve text fun id hid => hid)
  · rw [flatMap_pages hhits hall]
    -- there is a hit exactly if the list of matches is not empty
    constructor
    · intro ⟨hit, hhit, hid⟩
      obtain ⟨other, hother, hhit⟩ := List.mem_flatMap.mp hhit
      obtain ⟨op, hget, hselects⟩ := (ChainQueries.mem_candidates hmirrors key other).mp hother
      obtain ⟨hne, -, entry, hentry, href⟩ :=
        (ChainQueries.mem_hitsAt hmirrors hresolve hget text hit).mp hhit
      obtain ⟨found, hfound, hrecord, -, -⟩ :=
        ChainQueries.entryAt_of_get hmirrors hresolve hget
      rw [hentry] at hfound
      cases hfound
      rw [href, hrecord] at hid
      subst hid
      refine ⟨⟨op, hget, hselects⟩, ?_⟩
      by_contra hnone
      exact hne ((matches_eq_nil htext.1).mpr hnone)
    · intro ⟨⟨op, hget, hselects⟩, hoccurs⟩
      have hcandidate := (ChainQueries.mem_candidates hmirrors key id).mpr ⟨op, hget, hselects⟩
      obtain ⟨entry, hentry, hrecord, -, -⟩ := ChainQueries.entryAt_of_get hmirrors hresolve hget
      have hne : (queries.resultsAt w.directory resolve id).filterMap (matchOf text) ≠ [] :=
        fun hnil => (matches_eq_nil htext.1).mp hnil hoccurs
      have hhit := (ChainQueries.mem_hitsAt hmirrors hresolve hget text
        ⟨entry.recordRef, _⟩).mpr ⟨hne, rfl, entry, hentry, rfl⟩
      exact ⟨_, List.mem_flatMap.mpr ⟨id, hcandidate, hhit⟩, hrecord⟩
  · -- the marks of a hit are the matches in the fields of its operation
    rw [flatMap_pages hhits hall] at hhit
    obtain ⟨id, hid, hhit⟩ := List.mem_flatMap.mp hhit
    obtain ⟨op, hget, -⟩ := (ChainQueries.mem_candidates hmirrors key id).mp hid
    obtain ⟨-, hfields, entry, hentry, href⟩ :=
      (ChainQueries.mem_hitsAt hmirrors hresolve hget text hit).mp hhit
    obtain ⟨found, hfound, hrecord, -, -⟩ := ChainQueries.entryAt_of_get hmirrors hresolve hget
    rw [hentry] at hfound
    cases hfound
    rw [href, hrecord, hfields]
    refine ⟨fun found => ?_, sublist_matches htext.1 _⟩
    rw [List.mem_filterMap]
    constructor
    · intro ⟨content, hcontent, hmatch⟩
      exact ⟨content, hcontent, (matchOf_eq_some htext.1).mp hmatch⟩
    · intro ⟨content, hcontent, hmarks⟩
      exact ⟨content, hcontent, (matchOf_eq_some htext.1).mpr hmarks⟩
  · -- gaps are kept for every candidate, with or without a hit
    rw [flatMap_pages hgaps hall, List.mem_flatMap]
    constructor
    · intro ⟨id, hid, hgap⟩
      obtain ⟨op, hget, hselects⟩ := (ChainQueries.mem_candidates hmirrors key id).mp hid
      obtain ⟨hresult, hnone⟩ :=
        (ChainQueries.mem_gapsAt hmirrors hresolve hget content).mp hgap
      exact ⟨id, op, hget, hselects, hresult, hnone⟩
    · intro ⟨id, op, hget, hselects, hresult, hnone⟩
      exact ⟨id, (ChainQueries.mem_candidates hmirrors key id).mpr ⟨op, hget, hselects⟩,
        (ChainQueries.mem_gapsAt hmirrors hresolve hget content).mpr ⟨hresult, hnone⟩⟩

end EditChain.Index.Setting

namespace EditChain.Index.Setting

open Activity (ContentField ContentReference ContentResult ContentValue payloads)
open Core Fallible Store
open Engine
open Migration (AddressHash messageAddresses)

section Witness

local instance searchAddresses : AddressHash := messageAddresses
local instance searchChecksum : Checksum := crc32cChecksum
local instance searchDigests : Blake3 := messageDigests
local instance searchSchema : Schema (Migration.Op payloads) := spelledSchema

local instance searchIndex : IndexSchema (Migration.Op payloads) ContentReference IndexKey :=
  recordedSchema

/-- The text of the second snapshot of the file. -/
def moonText : Bytes := [104, 101, 108, 108, 111, 32, 109, 111, 111, 110]

/-- A store with the two snapshots of the file. -/
def snapshots : ContentReference → Except IoError Activity.BlobResolution := fun reference =>
  .ok (if reference.id = .hash256 1 then .found greetingText
    else if reference.id = .hash256 2 then .found moonText else .missing)

lemma snapshots_answer : ∀ reference, ∃ found, snapshots reference = .ok found :=
  fun _ => ⟨_, rfl⟩

/-- The bytes of `world`. -/
def world : Bytes := [119, 111, 114, 108, 100]

/-- The fields of the file revision, as the list of its content shows them. -/
def listed (index : ChainIndex (Migration.Op payloads) ContentReference IndexKey) :
    Except IoError (List (ContentField × ContentValue)) := do
  match ← ChainQueries.contents ⟨index⟩ recordedChain snapshots 6 with
  | .found results => return results.map fun content => (content.field, content.value)
  | .missing | .conflicted _ => return []

/-- The hits of a search for `world` in pages of two operations. -/
def marked (index : ChainIndex (Migration.Op payloads) ContentReference IndexKey) :
    Except IoError (List (OpId × List FieldMatch)) := do
  let pages ← followPages (ChainQueries.search ⟨index⟩ recordedChain snapshots world none)
    SearchPage.nextAfter (fun _ => 2) 7 0 none
  return (pages.flatMap SearchPage.hits).map fun hit => (hit.recordRef.operation, hit.fields)

set_option maxRecDepth 8192 in
lemma recordedIndex_searched : recordedIndex.1.toOption.any (fun index =>
    ((index.get 6).isSome && decide ((listed index).toOption = some
        [(.fileBase, .available greetingText), (.fileAfter, .available moonText),
          (.fileEdit, .notRecorded)]))
      && (decide ((ChainQueries.candidates ⟨index⟩ none).length < 7)
        && decide ((marked index).toOption = some [(3, [⟨.gitMessage, 6, 11⟩]),
          (4, [⟨.toolContent, 6, 11⟩]), (6, [⟨.fileBase, 6, 11⟩])]))) = true := by
  decide +kernel

/-- A revision of a file lists its two snapshots and no edit, and a query for one of them agrees; it
has no name of a tool. -/
theorem content_agrees_with_contents_revision :
    ∃ (w : Setting (Migration.Op payloads) ContentReference IndexKey)
      (index : ChainIndex (Migration.Op payloads) ContentReference IndexKey)
      (results : List (ContentResult Engine.RecordRef))
      (after name : ContentResult Engine.RecordRef),
      Run "/chain" { directory := recordedChain, truth := fun _ => .available } w
        ∧ w.handle = some index
        ∧ ChainQueries.contents ⟨index⟩ w.directory snapshots 6 = .ok (.found results)
        ∧ results.map (fun content => (content.field, content.value))
          = [(.fileBase, .available greetingText), (.fileAfter, .available moonText),
            (.fileEdit, .notRecorded)]
        ∧ ChainQueries.content ⟨index⟩ w.directory snapshots 6 .fileAfter = .ok (.found after)
        ∧ after.value = .available moonText
        ∧ ChainQueries.content ⟨index⟩ w.directory snapshots 6 .toolName = .ok (.found name)
        ∧ name.value = .notRecorded := by
  obtain ⟨w, index, hrun, hindex, hdirectory, hshows⟩ :=
    recorded_opened _ recordedIndex_searched
  rw [Bool.and_eq_true, Bool.and_eq_true, decide_eq_true_iff] at hshows
  obtain ⟨⟨haccepted, hlisted⟩, -⟩ := hshows
  obtain ⟨op, hget⟩ := Option.isSome_iff_exists.mp haccepted
  obtain ⟨results, hcontents, -, -, hquery⟩ :=
    content_agrees_with_contents hrun hindex snapshots_answer hget
  have hseen : listed index
      = .ok (results.map fun content => (content.field, content.value)) := by
    unfold listed
    rw [← hdirectory]
    exact bind_eq_ok.mpr ⟨_, hcontents, rfl⟩
  rw [hseen] at hlisted
  have hfields := Option.some.inj hlisted
  obtain ⟨after, hafter, -, -, hvalue, -⟩ := hquery .fileAfter
  obtain ⟨name, hname, -, -, -, hunlisted⟩ := hquery .toolName
  refine ⟨w, index, results, after, name, hrun, hindex, hcontents, hfields, hafter, ?_, hname, ?_⟩
  · have hmem : (ContentField.fileAfter, ContentValue.available moonText)
        ∈ results.map fun content => (content.field, content.value) := by
      rw [hfields]
      decide
    obtain ⟨content, hcontent, hshown⟩ := List.mem_map.mp hmem
    obtain ⟨hfield, hshown⟩ := Prod.mk.inj hshown
    have hselected : Activity.selectedField op.kind .fileAfter = .fileAfter := by
      cases op.kind <;> rfl
    rw [(hvalue content hcontent (hfield.trans hselected.symm)).1, hshown]
  · apply hunlisted
    intro content hcontent hfield
    have hmem := List.mem_map_of_mem (f := fun content => (content.field, content.value)) hcontent
    rw [hfields] at hmem
    have hselected : Activity.selectedField op.kind .toolName = .toolName
        ∨ Activity.selectedField op.kind .toolName = .record .toolName := by
      cases op.kind
      case activity => exact .inr rfl
      all_goals exact .inl rfl
    rcases hselected with hselected | hselected
    all_goals
      rw [hfield, hselected] at hmem
      simp at hmem

/-- A search for `world` finds the commit, the result of the tool and the revision of the file, and
marks the bytes from 6 to 11. -/
theorem search_complete_hits :
    ∃ (w : Setting (Migration.Op payloads) ContentReference IndexKey)
      (index : ChainIndex (Migration.Op payloads) ContentReference IndexKey)
      (pages : List SearchPage),
      Run "/chain" { directory := recordedChain, truth := fun _ => .available } w
        ∧ w.handle = some index
        ∧ followPages (ChainQueries.search ⟨index⟩ w.directory snapshots world none)
            SearchPage.nextAfter (fun _ => 2) 7 0 none = .ok pages
        ∧ ((pages.flatMap SearchPage.hits).map fun hit => (hit.recordRef.operation, hit.fields))
          = [(3, [⟨.gitMessage, 6, 11⟩]), (4, [⟨.toolContent, 6, 11⟩]),
            (6, [⟨.fileBase, 6, 11⟩])]
        ∧ (pages.map SearchPage.scanned).sum = (ChainQueries.candidates ⟨index⟩ none).length := by
  obtain ⟨w, index, hrun, hindex, hdirectory, hshows⟩ :=
    recorded_opened _ recordedIndex_searched
  rw [Bool.and_eq_true, Bool.and_eq_true (decide _), decide_eq_true_iff, decide_eq_true_iff]
    at hshows
  obtain ⟨-, hfew, hmarked⟩ := hshows
  have htext : world ≠ [] ∧ world.length ≤ 16384 := by decide
  obtain ⟨results, -, hsearch⟩ := search_complete hrun hindex snapshots_answer htext none
  obtain ⟨before, last, hpages, -, hscanned, -⟩ :=
    hsearch (fun _ => 2) (fun _ => ⟨by omega, by omega⟩) 7 hfew
  have hseen : marked index = .ok (((before ++ [last]).flatMap SearchPage.hits).map fun hit =>
      (hit.recordRef.operation, hit.fields)) := by
    unfold marked
    rw [← hdirectory]
    exact bind_eq_ok.mpr ⟨_, hpages, rfl⟩
  rw [hseen] at hmarked
  exact ⟨w, index, _, hrun, hindex, hpages, Option.some.inj hmarked, hscanned⟩

end Witness
end EditChain.Index.Setting
