import EditChain.Activity.FieldsTheorems
import EditChain.Migration.RecordTheorems

/-!
# Listings of content

A listing of the content of an operation is compared with the references that its fields name, in
schema order and as often as they occur. Outside schema three every reference is listed once, where
it occurs first; a record of schema three lists a reference as often as it has it.
-/

namespace EditChain.Activity

open Migration (AddressHash Op OpKind SourceId ParentSet)
open Traversed (refs)

/-! ## Listing once -/

/-- The listing holds what occurs, in the order of first occurrences. -/
structure ListsOnce (listing occurring : List ContentReference) : Prop where
  mem : ∀ r, r ∈ listing ↔ r ∈ occurring
  ordered : listing.Pairwise fun a b => occurring.idxOf a < occurring.idxOf b

section

variable {listing occurring more : List ContentReference}

lemma ListsOnce.nodup (h : ListsOnce listing occurring) : listing.Nodup :=
  h.ordered.imp fun hlt heq => absurd hlt (by rw [heq]; exact lt_irrefl _)

/-- Leaving out other members keeps the order of the first occurrences. -/
lemma idxOf_lt_of_filter {first a b : ContentReference} (ha : a ≠ first) (hb : b ≠ first)
    (h : (occurring.filter fun r => !r == first).idxOf a
      < (occurring.filter fun r => !r == first).idxOf b) :
    occurring.idxOf a < occurring.idxOf b := by
  induction occurring with
  | nil => simp at h
  | cons r rest ih =>
    by_cases hr : r = first
    · subst hr
      rw [List.idxOf_cons_ne rest ha.symm, List.idxOf_cons_ne rest hb.symm]
      have hrest := ih (by simpa using h)
      omega
    · rw [List.filter_cons_of_pos (by simpa using hr)] at h
      by_cases hra : r = a
      · subst hra
        have hne : r ≠ b := by
          rintro rfl
          exact absurd h (lt_irrefl _)
        rw [List.idxOf_cons_self, List.idxOf_cons_ne rest hne]
        omega
      · by_cases hrb : r = b
        · subst hrb
          rw [List.idxOf_cons_self] at h
          omega
        · rw [List.idxOf_cons_ne _ hra, List.idxOf_cons_ne _ hrb] at h ⊢
          have hrest := ih (by omega)
          omega

lemma ordered_eraseDups (occurring : List ContentReference) :
    occurring.eraseDups.Pairwise fun a b => occurring.idxOf a < occurring.idxOf b := by
  induction hsize : occurring.length using Nat.strong_induction_on generalizing occurring with
  | _ size ih =>
    cases occurring with
    | nil => exact .nil
    | cons first rest =>
      have hless : (rest.filter fun r => !r == first).length < size := by
        rw [← hsize, List.length_cons]
        exact Nat.lt_succ_of_le (List.length_filter_le _ _)
      have hrest := ih _ hless (rest.filter fun r => !r == first) rfl
      have hother : ∀ r ∈ (rest.filter fun r => !r == first).eraseDups, r ≠ first := by
        intro r hr
        have hmem := (List.mem_filter.mp (List.mem_eraseDups.mp hr)).2
        simpa using hmem
      rw [List.eraseDups_cons]
      refine List.pairwise_cons.mpr ⟨fun r hr => ?_, ?_⟩
      · rw [List.idxOf_cons_self, List.idxOf_cons_ne rest (hother r hr).symm]
        omega
      · refine List.Pairwise.imp_of_mem ?_ hrest
        intro a b ha hb hlt
        rw [List.idxOf_cons_ne rest (hother a ha).symm, List.idxOf_cons_ne rest (hother b hb).symm]
        have := idxOf_lt_of_filter (hother a ha) (hother b hb) hlt
        omega

/-- Dropping what was seen before lists everything once. -/
lemma listsOnce_eraseDups (occurring : List ContentReference) :
    ListsOnce occurring.eraseDups occurring :=
  ⟨fun _ => List.mem_eraseDups, ordered_eraseDups occurring⟩

/-- A list without repetitions is listed once, also when members occur again behind it. -/
lemma listsOnce_append (h : listing.Nodup) (hsub : more ⊆ listing) :
    ListsOnce listing (listing ++ more) := by
  constructor
  · intro r
    rw [List.mem_append]
    exact ⟨.inl, fun hr => hr.elim id fun hr => hsub hr⟩
  · refine List.Pairwise.imp_of_mem ?_ (List.pairwise_iff_getElem.mpr fun i j hi hj hlt => ?_)
      (R := fun a b => listing.idxOf a < listing.idxOf b)
    · intro a b ha hb hlt
      rw [List.idxOf_append_of_mem ha, List.idxOf_append_of_mem hb]
      exact hlt
    · rw [h.idxOf_getElem, h.idxOf_getElem]
      exact hlt

end

/-! ## Occurrences -/

section

variable [AddressHash]

/-- The references that the fields of an operation name, in schema order. -/
def occurrences (kind : OpKind payloads OpId) : List ContentReference :=
  (queryFields kind).filterMap fun field => field.2.named

omit [AddressHash] in
/-- The references of payloads in the order of the payloads. -/
lemma named_payloads (fields : List (ContentField × Payload)) :
    (payloadFields fields).filterMap (fun field => field.2.named)
      = Payload.references (fields.map Prod.snd) := by
  unfold payloadFields Payload.references
  rw [List.filterMap_map, List.filterMap_map]
  apply List.filterMap_congr
  rintro ⟨field, payload⟩ -
  cases payload <;> rfl

omit [AddressHash] in
/-- Positions do not matter to what payloads name. -/
lemma named_zipIdx (payloads : List Payload) (f : ℕ → ContentField) (k : ℕ) :
    ((payloads.zipIdx k).map fun (payload, i) => (f i, FieldSource.payload payload)).filterMap
        (fun field => field.2.named)
      = Payload.references payloads := by
  unfold Payload.references
  induction payloads generalizing k with
  | nil => rfl
  | cons payload payloads ih =>
    rw [List.zipIdx_cons, List.map_cons, List.filterMap_cons, List.filterMap_cons, ih (k + 1)]
    cases payload <;> rfl

omit [AddressHash] in
lemma Payload.references_append (payloads more : List Payload) :
    Payload.references (payloads ++ more)
      = Payload.references payloads ++ Payload.references more :=
  List.filterMap_append

/-- Outside schema three every reference is listed where it occurs first. -/
lemma references_eq_eraseDups {op : Op payloads} (h : ∀ record, op.kind ≠ .activity record) :
    references op = (occurrences op.kind).eraseDups := by
  obtain ⟨id, source, parents, context, kind⟩ := op
  cases kind with
  | activity record => exact absurd rfl (h record)
  | note targetIds rest =>
    show (Payload.references _).eraseDups = _
    exact congrArg List.eraseDups (named_payloads [(.noteContent, rest.content)]).symm
  | gitLink origin rest =>
    obtain ⟨targetRepo, targetOid, kind⟩ := rest
    cases kind with
    | custom payload =>
      exact congrArg List.eraseDups (named_payloads [(.gitLinkCustom, payload)]).symm
    | _ => rfl
  | gitCommit importedRecord rest =>
    show (Payload.references _).eraseDups = _
    unfold occurrences queryFields
    rw [List.filterMap_append, List.filterMap_append, named_payloads, named_zipIdx, named_zipIdx,
      ← Payload.references_append, ← Payload.references_append]
    rfl
  | plain payload =>
    cases payload with
    | file file =>
      obtain ⟨path, stage, base, after, edit⟩ := file
      apply congrArg List.eraseDups
      cases edit with
      | none => cases base <;> cases after <;> rfl
      | blob reference => cases base <;> cases after <;> rfl
      | replaceBytes range bytes => cases base <;> cases after <;> cases bytes <;> rfl
      | unifiedDiff bytes => cases base <;> cases after <;> cases bytes <;> rfl
    | chainStart name version => rfl
    | actor label role =>
      exact congrArg List.eraseDups (named_payloads [(.actorLabel, label), (.actorRole, role)]).symm
    | session id parent label metadata =>
      exact congrArg List.eraseDups (named_payloads
        [(.sessionLabel, label), (.sessionMetadata, metadata)]).symm
    | message content contentType =>
      exact congrArg List.eraseDups (named_payloads
        [(.messageContent, content), (.messageContentType, contentType)]).symm
    | tool toolCallId toolName stage content =>
      exact congrArg List.eraseDups (named_payloads
        [(.toolCallId, toolCallId), (.toolName, toolName), (.toolContent, content)]).symm
    | command commandId content stage =>
      exact congrArg List.eraseDups (named_payloads
        [(.commandId, commandId), (.commandContent, content)]).symm
    | reflection scope covers window summary anchors =>
      exact congrArg List.eraseDups (named_payloads
        [(.reflectionSummary, summary), (.reflectionAnchors, anchors)]).symm
    | ofImport rawRef rawHash =>
      exact congrArg List.eraseDups (named_payloads [(.importRaw, rawRef)]).symm
    | error code message =>
      exact congrArg List.eraseDups (named_payloads
        [(.errorCode, code), (.errorMessage, message)]).symm
    | unknown kindDiscriminant rawBytes =>
      exact congrArg List.eraseDups (named_payloads [(.unknownRaw, rawBytes)]).symm

/-! ## Records of schema three -/

omit [AddressHash] in
lemma references_eq_flatMap (payloads : List Payload) :
    Payload.references payloads = payloads.flatMap Payload.refs := by
  induction payloads with
  | nil => rfl
  | cons payload payloads ih =>
    rw [List.flatMap_cons, ← ih]
    cases payload <;> rfl

omit [AddressHash] in
/-- Members without content contribute nothing. -/
lemma flatMap_scalar {α : Type} (l : List α) :
    l.flatMap (fun _ => ([] : List ContentReference)) = [] := by
  induction l with
  | nil => rfl
  | cons _ l ih => exact ih

omit [AddressHash] in
/-- The traversal of a record finds a reference as often as its payloads and snapshots have it. -/
lemma perm_refs (kind : Kind) :
    (refs kind).Perm (Payload.references (kind.fields.map Prod.snd) ++ kind.snapshots) := by
  rw [references_eq_flatMap]
  cases kind with
  | message value =>
    rw [snd_fields_message]
    -- the traversal visits the media type of a block before its content
    have hblocks : (value.blocks.flatMap fun block => block.mediaType.refs ++ block.content.refs).Perm
        (value.blocks.flatMap fun block => block.content.refs ++ block.mediaType.refs) :=
      List.Perm.flatMap_left _ fun _ _ => List.perm_append_comm
    have hlisted : (value.blocks.flatMap fun block => [block.content, block.mediaType]).flatMap
        Payload.refs = value.blocks.flatMap fun block => block.content.refs ++ block.mediaType.refs := by
      rw [List.flatMap_assoc]
      simp
    rw [List.flatMap_append, List.flatMap_append, hlisted]
    have hall := hblocks.append_right ((value.coverage.toList.flatMap fun coverage =>
      coverage.anchors.refs) ++ value.outcome.toList.flatMap fun outcome => outcome.detail.refs)
    simpa [Kind.snapshots, refs, flatMap_scalar, List.flatMap_map] using hall
  | tool value =>
    rw [List.perm_iff_count]
    intro r
    cases hout : value.output <;> cases hterm : value.terminal <;>
      simp [Kind.fields, Kind.snapshots, refs, flatMap_scalar, List.flatMap_map, hout, hterm] <;>
      omega
  | file value =>
    rw [snd_fields_file, List.perm_iff_count]
    intro r
    cases hedit : value.edit <;>
      simp [Kind.snapshots, refs, flatMap_scalar, List.flatMap_map, hedit, List.count_cons] <;> omega
  | commit importedRecord value =>
    rw [snd_fields_commit, List.perm_iff_count]
    intro r
    simp [Kind.snapshots, refs, flatMap_scalar]
    omega
  | _ => simp [Kind.fields, Kind.snapshots, refs, flatMap_scalar, List.flatMap_map]

/-- An operation of schema three lists its references as `fields` and the snapshots have them. -/
lemma references_activity {op : Op payloads} {record : Operation} (h : op.kind = .activity record) :
    references op = Payload.references (record.kind.fields.map Prod.snd) ++ record.kind.snapshots := by
  rw [← map_contentAddresses]
  unfold references
  rw [h]

omit [AddressHash] in
/-- Empty payloads name nothing. -/
lemma named_fields (fields : List (Field × Payload)) :
    (fields.map fun (field, payload) => (ContentField.record field,
        if payload = Payload.empty then FieldSource.notRecorded
          else .payload payload)).filterMap
        (fun field => field.2.named)
      = Payload.references (fields.map Prod.snd) := by
  unfold Payload.references
  rw [List.filterMap_map, List.filterMap_map]
  apply List.filterMap_congr
  rintro ⟨field, payload⟩ -
  cases payload <;> rfl

/-- The content of the bytes of an edit. -/
def File.editRefs (file : File) : List ContentReference :=
  match file.edit with
  | .replaceBytes _ bytes | .unifiedDiff bytes => bytes.refs
  | .none | .blob _ => []

omit [AddressHash] in
/-- The fields of a file name its snapshots, and the bytes of its edit. -/
lemma named_snapshots (file : File) :
    [(ContentField.fileBase, snapshotSource file.before), (.fileAfter, snapshotSource file.after),
        (.fileEdit, editSource file.edit)].filterMap (fun field => field.2.named)
      = (Kind.file file).snapshots ++ file.editRefs := by
  obtain ⟨action, path, name, renamedTo, revision, before, after, edit⟩ := file
  cases edit with
  | none => cases before <;> cases after <;> rfl
  | blob reference => cases before <;> cases after <;> rfl
  | replaceBytes range bytes => cases before <;> cases after <;> cases bytes <;> rfl
  | unifiedDiff bytes => cases before <;> cases after <;> cases bytes <;> rfl

/-- The fields of a record name what is listed, and the bytes of an edit once more. -/
lemma occurrences_activity (record : Operation) :
    ∃ more, more ⊆ Payload.references (record.kind.fields.map Prod.snd) ++ record.kind.snapshots
      ∧ occurrences (.activity record) = Payload.references (record.kind.fields.map Prod.snd)
        ++ record.kind.snapshots ++ more := by
  unfold occurrences queryFields
  rw [List.filterMap_append, named_fields]
  generalize record.kind = kind
  cases kind with
  | file file =>
    refine ⟨file.editRefs, ?_, by rw [named_snapshots, List.append_assoc]⟩
    · intro r hr
      rw [List.mem_append, mem_payload_references, snd_fields_file]
      left
      unfold File.editRefs at hr
      cases hedit : file.edit <;> rw [hedit] at hr
      · cases hr
      · exact ⟨_, by simp, hr⟩
      · exact ⟨_, by simp, hr⟩
      · cases hr
  | _ => exact ⟨[], List.nil_subset _, by simp [Kind.snapshots]⟩

/-- No two places of a record of schema three hold the same reference. -/
def Apart (op : Op payloads) : Prop := ∀ record, op.kind = .activity record → (refs record.kind).Nodup

/-- The references of an operation are listed once exactly if it is not a record of schema three, or
the places of the record hold different references. -/
lemma listsOnce_references (op : Op payloads) :
    ListsOnce (references op) (occurrences op.kind) ↔ Apart op := by
  by_cases hactivity : ∃ record, op.kind = .activity record
  · obtain ⟨record, hrecord⟩ := hactivity
    have hapart : Apart op ↔ (references op).Nodup := by
      rw [references_activity hrecord, ← (perm_refs record.kind).nodup_iff]
      constructor
      · intro h
        exact h record hrecord
      · intro h other hother
        rw [hrecord] at hother
        cases hother
        exact h
    rw [hapart]
    constructor
    · exact ListsOnce.nodup
    · intro hnodup
      obtain ⟨more, hmore, hoccurs⟩ := occurrences_activity record
      rw [hrecord, hoccurs, ← references_activity hrecord]
      rw [← references_activity hrecord] at hmore
      exact listsOnce_append hnodup hmore
  · have hother : ∀ record, op.kind ≠ .activity record := fun record h => hactivity ⟨record, h⟩
    rw [references_eq_eraseDups hother]
    exact ⟨fun _ record h => absurd h (hother record), fun _ => listsOnce_eraseDups _⟩

/-- What the index and a query list for an accepted operation has every reference once, where it
occurs first, exactly if the operation is not a record of schema three, or no two places of the
record hold the same reference. -/
theorem listed_once_iff_apart {R : Type} {entries : ContentReference → Option ContentState}
    {recordRef : R} {op : Op payloads} {entry : HistoryEntry R}
    (h : historyEntry entries recordRef op = .ok entry) :
    indexedContent entries op = .ok entry.content
      ∧ (ListsOnce (entry.content.map ContentStatus.reference) (occurrences op.kind)
        ↔ Apart op) := by
  obtain ⟨-, hlisted⟩ := historyEntry_eq_ok h
  obtain ⟨content, hcontent, hentry⟩ := Fallible.bind_eq_ok.mp h
  cases hentry
  refine ⟨hcontent, ?_⟩
  rw [hlisted]
  exact listsOnce_references op

end

section Witness

local instance listedAddresses : AddressHash := Migration.messageAddresses

/-- A blob of one byte. -/
def sharedBlob : BlobRef := ⟨.hash256 7, 1⟩

/-- A session whose label and settings are the same blob. -/
def sharedRecord : Operation where
  id := 1
  item := ⟨2⟩
  author := none
  recorder := ⟨3⟩
  session := none
  turn := none
  timeMs := none
  sequence := none
  parents := []
  causes := []
  original := none
  legacy := none
  kind := .session {
    action := .started, label := .blob sharedBlob, settings := .blob sharedBlob,
    participants := [], parent := none, initiatedBy := none }

/-- A message of the old schema whose content and type are the same blob. -/
def sharedMessage : Op payloads where
  id := 1
  source := none
  parents := .none
  context := ⟨0, .none, .none, 0⟩
  kind := .plain (.message (.blob sharedBlob) (.blob sharedBlob))

/-- The blob that both fields of the message hold is listed once. -/
theorem listed_once_iff_apart_message :
    ∃ entry : HistoryEntry Unit,
      historyEntry (fun _ => some .available) () sharedMessage = .ok entry
        ∧ entry.content.length = 1
        ∧ ListsOnce (entry.content.map ContentStatus.reference) (occurrences sharedMessage.kind) := by
  have hentry : historyEntry (fun _ => some .available) () sharedMessage
      = .ok ⟨sharedMessage, (), [⟨sharedBlob.toReference, .available⟩]⟩ := rfl
  have hapart : Apart sharedMessage := by
    intro record hrecord
    cases hrecord
  exact ⟨_, hentry, rfl, (listed_once_iff_apart hentry).2.mpr hapart⟩

/-- A valid record of schema three that holds a blob twice has it listed twice. -/
theorem shared_blob_listed_twice :
    ∃ (op : Op payloads) (entry : HistoryEntry Unit),
      Migration.intoOp (P := payloads) sharedRecord = some op
        ∧ historyEntry (fun _ => some .available) () op = .ok entry
        ∧ ¬ ListsOnce (entry.content.map ContentStatus.reference) (occurrences op.kind) := by
  refine ⟨_, ⟨_, (), [⟨sharedBlob.toReference, .available⟩, ⟨sharedBlob.toReference, .available⟩]⟩,
    rfl, rfl, fun h => ?_⟩
  have hnodup := h.nodup
  exact absurd hnodup (by decide)

end Witness
end EditChain.Activity
