import EditChain.Activity.Fields
import EditChain.Lib.Fallible
import Mathlib.Data.List.Nodup

/-!
# The inventories of content agree

The schema is traversed once more, type by type: every field of every structure, every variant of
every enumeration. What refers to content there is what the index keeps, what a replica wants and
what a query may select.
-/

namespace EditChain.Activity

open Migration (AddressHash Op OpKind SourceId ParentSet)
open Fallible

/-! ## The traversal of the schema -/

/-- A type of the schema, with the references in a value of it, field by field. -/
class Traversed (α : Type) where
  refs : α → List ContentReference

open Traversed (refs)

/-- A type that holds no content. -/
@[reducible] def Traversed.scalar {α : Type} : Traversed α := ⟨fun _ => []⟩

instance : Traversed UInt8 := .scalar
instance : Traversed UInt16 := .scalar
instance : Traversed UInt32 := .scalar
instance : Traversed UInt64 := .scalar
instance : Traversed Int32 := .scalar
instance : Traversed Int64 := .scalar
instance {n : ℕ} : Traversed (BitVec n) := .scalar
instance : Traversed String := .scalar
instance : Traversed Clock := .scalar
instance : Traversed ScopeRef := .scalar
instance : Traversed ByteRange := .scalar
instance : Traversed TextRange := .scalar
instance : Traversed Frontier := .scalar
instance : Traversed WindowRef := .scalar
instance : Traversed GitObjectFormat := .scalar
instance : Traversed GitOid := .scalar
instance : Traversed GitAvailability := .scalar
instance : Traversed ToolStage := .scalar
instance : Traversed CommandStage := .scalar
instance : Traversed FileStage := .scalar
instance : Traversed NoteRelationship := .scalar
instance : Traversed Status := .scalar
instance : Traversed SessionAction := .scalar
instance : Traversed TurnAction := .scalar
instance : Traversed Stage := .scalar
instance : Traversed UpdateMode := .scalar
instance : Traversed MessageKind := .scalar
instance : Traversed OutputChannel := .scalar
instance : Traversed FileAction := .scalar
instance : Traversed ChangeState := .scalar
instance : Traversed NoteKind := .scalar
instance : Traversed AuthorRole := .scalar
instance : Traversed ItemId := .scalar
instance : Traversed NativeId := .scalar
instance : Traversed Location := .scalar
instance : Traversed Entity := .scalar
instance : Traversed SourceId := .scalar

instance {α : Type} [Traversed α] : Traversed (Option α) := ⟨fun value => value.toList.flatMap refs⟩
instance {α : Type} [Traversed α] : Traversed (List α) := ⟨fun values => values.flatMap refs⟩
instance {α : Type} [Traversed α] : Traversed (ParentSet α) := ⟨fun value => refs value.toList⟩

/-- A recorded snapshot. -/
instance : Traversed ContentId := ⟨fun id => [⟨id, none⟩]⟩

/-- A recorded blob. -/
instance : Traversed BlobRef := ⟨fun reference => [⟨reference.id, some reference.len⟩]⟩

/-- The references of a payload. -/
def Payload.refs : Payload → List ContentReference
  | .empty => []
  | .inline _ => []
  | .blob reference => Traversed.refs reference

instance : Traversed Payload := ⟨Payload.refs⟩

instance : Traversed FileEdit where
  refs
    | .none => []
    | .replaceBytes range bytes => refs range ++ refs bytes
    | .unifiedDiff diff => refs diff
    | .blob reference => refs reference

instance : Traversed GitSignature where
  refs value := refs value.name ++ refs value.email ++ refs value.timestamp

instance : Traversed GitCommit where
  refs value := refs value.repository ++ refs value.objectFormat ++ refs value.oid
    ++ refs value.availability ++ refs value.tree ++ refs value.parents ++ refs value.author
    ++ refs value.committer ++ refs value.authoredAt ++ refs value.committedAt
    ++ refs value.message ++ refs value.importedRefs ++ refs value.liveRefs
    ++ refs value.changedPaths

instance : Traversed GitLinkKind where
  refs
    | .basedOn | .checkpoint | .committedAs | .producedBy | .mentions => []
    | .custom payload => refs payload

instance : Traversed GitLink where
  refs value := refs value.targetRepo ++ refs value.targetOid ++ refs value.kind

instance : Traversed FileOp where
  refs value := refs value.path ++ refs value.stage ++ refs value.base ++ refs value.after
    ++ refs value.edit

instance : Traversed NoteOp where
  refs value := refs value.relationship ++ refs value.content

instance : Traversed PlainKind where
  refs
    | .chainStart name version => refs name ++ refs version
    | .actor label role => refs label ++ refs role
    | .message content contentType => refs content ++ refs contentType
    | .tool toolCallId toolName stage content =>
      refs toolCallId ++ refs toolName ++ refs stage ++ refs content
    | .command commandId content stage => refs commandId ++ refs content ++ refs stage
    | .file file => refs file
    | .reflection scope covers window summary anchors =>
      refs scope ++ refs covers ++ refs window ++ refs summary ++ refs anchors
    | .ofImport rawRef rawHash => refs rawRef ++ refs rawHash
    | .error code message => refs code ++ refs message
    | .unknown kindDiscriminant rawBytes => refs kindDiscriminant ++ refs rawBytes
    | .session id parent label metadata => refs id ++ refs parent ++ refs label ++ refs metadata

instance : Traversed OriginalRef where
  refs value := refs value.operation ++ refs value.converter

instance : Traversed LegacyMapping where
  refs value := refs value.operation ++ refs value.folded ++ refs value.source ++ refs value.actor
    ++ refs value.clock ++ refs value.scope ++ refs value.tags

instance : Traversed Completion where
  refs value := refs value.status ++ refs value.detail

instance : Traversed Session where
  refs value := refs value.action ++ refs value.label ++ refs value.settings
    ++ refs value.participants ++ refs value.parent ++ refs value.initiatedBy

instance : Traversed Turn where
  refs value := refs value.action ++ refs value.triggers ++ refs value.attempt ++ refs value.outcome

instance : Traversed ContentUpdate where
  refs value := refs value.block ++ refs value.position ++ refs value.mode ++ refs value.previous
    ++ refs value.mediaType ++ refs value.content

instance : Traversed Coverage where
  refs value := refs value.operations ++ refs value.frontiers ++ refs value.window
    ++ refs value.anchors

instance : Traversed Message where
  refs value := refs value.category ++ refs value.stage ++ refs value.audience
    ++ refs value.blocks ++ refs value.coverage ++ refs value.outcome

instance : Traversed Terminal where
  refs value := refs value.command ++ refs value.cwd ++ refs value.exitCode

instance : Traversed Tool where
  refs value := refs value.nativeCall ++ refs value.name ++ refs value.stage ++ refs value.attempt
    ++ refs value.parentCall ++ refs value.arguments ++ refs value.channel ++ refs value.output
    ++ refs value.terminal ++ refs value.outcome

instance : Traversed TextEdit where
  refs value := refs value.offsetUtf16 ++ refs value.lengthUtf16 ++ refs value.text

instance : Traversed File where
  refs value := refs value.action ++ refs value.path ++ refs value.name ++ refs value.renamedTo
    ++ refs value.revision ++ refs value.before ++ refs value.after ++ refs value.edit
    ++ refs value.textEdits ++ refs value.change ++ refs value.causedBy ++ refs value.ranges
    ++ refs value.textRanges ++ refs value.durationMs

instance : Traversed Note where
  refs value := refs value.category ++ refs value.targets ++ refs value.items ++ refs value.version
    ++ refs value.content ++ refs value.code

instance : Traversed Author where
  refs value := refs value.label ++ refs value.role ++ refs value.nativeRole ++ refs value.metadata

instance : Traversed Link where
  refs value := refs value.source ++ refs value.relation ++ refs value.targets ++ refs value.content

instance : Traversed Original where
  refs value := refs value.provider ++ refs value.format ++ refs value.native
    ++ refs value.location ++ refs value.bytes ++ refs value.hash

instance : Traversed Kind where
  refs
    | .session value => refs value
    | .turn value => refs value
    | .message value => refs value
    | .tool value => refs value
    | .file value => refs value
    | .commit importedRecord value => refs importedRecord ++ refs value
    | .note value => refs value
    | .author value => refs value
    | .link value => refs value
    | .original value => refs value

instance : Traversed Operation where
  refs value := refs value.id ++ refs value.item ++ refs value.author ++ refs value.recorder
    ++ refs value.session ++ refs value.turn ++ refs value.timeMs ++ refs value.sequence
    ++ refs value.parents ++ refs value.causes ++ refs value.original ++ refs value.legacy
    ++ refs value.kind

instance : Traversed Context where
  refs value := refs value.actor ++ refs value.clock ++ refs value.scope ++ refs value.tags

instance [AddressHash] : Traversed (OpKind payloads OpId) where
  refs
    | .plain payload => refs (α := PlainKind) payload
    | .note targetIds rest => refs targetIds ++ refs (α := NoteOp) rest
    | .gitLink source rest => refs source ++ refs (α := GitLink) rest
    | .gitCommit importedRecord rest => refs importedRecord ++ refs (α := GitCommit) rest
    | .activity record => refs (α := Operation) record

instance [AddressHash] : Traversed (Op payloads) where
  refs op := refs op.id ++ refs op.source ++ refs op.parents ++ refs (α := Context) op.context
    ++ refs op.kind

/-! ## References of a record -/

/-- The references in a list of payloads are those of the traversal. -/
lemma mem_payload_references {payloads : List Payload} {r : ContentReference} :
    r ∈ Payload.references payloads ↔ ∃ payload ∈ payloads, r ∈ payload.refs := by
  unfold Payload.references
  rw [List.mem_filterMap]
  refine exists_congr fun payload => and_congr_right fun _ => ?_
  cases payload with
  | empty => simp [Payload.refs]
  | inline bytes => simp [Payload.refs]
  | blob reference => simp [Payload.refs, refs, BlobRef.toReference, eq_comm]

/-- The snapshots of a file and its replacement blob. -/
def Kind.snapshots : Kind → List ContentReference
  | .file value => refs value.before ++ refs value.after ++ (match value.edit with
      | .blob reference => refs reference
      | _ => [])
  | _ => []

section

variable {α β γ : Type}

/-- Positions do not matter to what is listed. -/
lemma map_snd_flatMap_zipIdx (l : List α) {f : α × ℕ → List (β × γ)} {g : α → List γ}
    (h : ∀ x, (f x).map Prod.snd = g x.1) :
    (l.zipIdx.flatMap f).map Prod.snd = l.flatMap g := by
  rw [List.map_flatMap]
  simp only [h]
  conv_rhs => rw [← List.zipIdx_map_fst 0 l]
  rw [List.flatMap_map]

lemma map_snd_map_zipIdx (l : List α) {f : α × ℕ → β × γ} {g : α → γ}
    (h : ∀ x, (f x).2 = g x.1) : (l.zipIdx.map f).map Prod.snd = l.map g := by
  conv_rhs => rw [← List.zipIdx_map_fst 0 l]
  rw [List.map_map, List.map_map]
  exact List.map_congr_left fun x _ => h x

end

lemma snd_fields_message (value : Message) :
    (Kind.message value).fields.map Prod.snd
      = (value.blocks.flatMap fun block => [block.content, block.mediaType])
        ++ value.coverage.toList.map (·.anchors) ++ value.outcome.toList.map (·.detail) := by
  rw [Kind.fields, List.map_append, List.map_append,
    map_snd_flatMap_zipIdx value.blocks (g := fun block => [block.content, block.mediaType])
      fun x => rfl, List.map_map, List.map_map]
  rfl

lemma snd_fields_file (value : File) :
    (Kind.file value).fields.map Prod.snd
      = [value.name] ++ value.renamedTo.toList ++ value.textEdits.map (·.text)
        ++ (match value.edit with
          | .replaceBytes _ bytes | .unifiedDiff bytes => [bytes]
          | .none | .blob _ => []) := by
  rw [Kind.fields, List.map_append, List.map_append, List.map_append,
    map_snd_map_zipIdx value.textEdits (g := fun edit => edit.text) fun x => rfl, List.map_map]
  cases value.edit <;> simp

lemma snd_fields_commit (importedRecord : Option OpId) (value : GitCommit) :
    (Kind.commit importedRecord value).fields.map Prod.snd
      = [value.message, value.author.name, value.author.email, value.committer.name,
        value.committer.email] ++ value.importedRefs ++ value.liveRefs := by
  rw [Kind.fields, List.map_append, List.map_append,
    map_snd_map_zipIdx value.importedRefs (g := id) fun x => rfl,
    map_snd_map_zipIdx value.liveRefs (g := id) fun x => rfl, List.map_id, List.map_id]
  rfl

/-- Every reference of a record is that of a payload that `fields` lists, or a snapshot. -/
lemma mem_refs_kind (kind : Kind) (r : ContentReference) :
    r ∈ refs kind ↔ r ∈ Payload.references (kind.fields.map Prod.snd) ∨ r ∈ kind.snapshots := by
  rw [mem_payload_references]
  cases kind with
  | session value => simp [Kind.fields, Kind.snapshots, refs]
  | turn value => simp [Kind.fields, Kind.snapshots, refs]
  | message value =>
    rw [snd_fields_message]
    have hblocks : (∃ payload ∈ value.blocks.flatMap fun block => [block.content, block.mediaType],
        r ∈ payload.refs) ↔ ∃ block ∈ value.blocks, r ∈ block.mediaType.refs
          ∨ r ∈ block.content.refs := by
      simp only [List.mem_flatMap, List.mem_cons, List.not_mem_nil, or_false]
      constructor
      · rintro ⟨payload, ⟨block, hblock, rfl | rfl⟩, hr⟩
        · exact ⟨block, hblock, .inr hr⟩
        · exact ⟨block, hblock, .inl hr⟩
      · rintro ⟨block, hblock, hr | hr⟩
        · exact ⟨_, ⟨block, hblock, .inr rfl⟩, hr⟩
        · exact ⟨_, ⟨block, hblock, .inl rfl⟩, hr⟩
    simp only [List.mem_append, or_and_right, exists_or, hblocks]
    simp [Kind.snapshots, refs, or_assoc]
  | tool value =>
    cases hout : value.output <;> cases hterm : value.terminal <;>
      simp [Kind.fields, Kind.snapshots, refs, hout, hterm, or_and_right, exists_or]
    all_goals exact Iff.of_eq (by ac_rfl)
  | file value =>
    rw [snd_fields_file]
    cases hedit : value.edit <;>
      simp [Kind.snapshots, refs, hedit, or_and_right, exists_or]
    all_goals exact Iff.of_eq (by ac_rfl)
  | commit importedRecord value =>
    rw [snd_fields_commit]
    simp [Kind.snapshots, refs, or_and_right, exists_or]
    exact Iff.of_eq (by ac_rfl)
  | note value => simp [Kind.fields, Kind.snapshots, refs]
  | author value => simp [Kind.fields, Kind.snapshots, refs]
  | link value => simp [Kind.fields, Kind.snapshots, refs]
  | original value => simp [Kind.fields, Kind.snapshots, refs]

/-- `content_addresses` lists the references of the payloads, and then the snapshots. -/
lemma map_contentAddresses (kind : Kind) :
    (kind.contentAddresses.map fun (id, len) => (⟨id, len⟩ : ContentReference))
      = Payload.references (kind.fields.map Prod.snd) ++ kind.snapshots := by
  unfold Kind.contentAddresses
  rw [List.map_append]
  congr 1
  · unfold Payload.references
    rw [List.map_filterMap, List.filterMap_map]
    apply List.filterMap_congr
    rintro ⟨field, payload⟩ -
    cases payload <;> rfl
  · cases kind with
    | file value =>
      cases hedit : value.edit <;>
        simp [Kind.snapshots, refs, hedit, ← List.map_eq_flatMap, Function.comp_def]
    | _ => rfl

/-! ## References of an operation -/

section

variable [AddressHash]

/-- Only the kind of an operation refers to content. -/
lemma mem_refs_op (op : Op payloads) (r : ContentReference) : r ∈ refs op ↔ r ∈ refs op.kind := by
  simp [refs]

lemma mem_refs_activity (record : Operation) (r : ContentReference) :
    r ∈ refs (OpKind.activity record : OpKind payloads OpId) ↔ r ∈ refs record.kind := by
  simp [refs]

/-- The index keeps what the traversal finds. -/
lemma mem_references (op : Op payloads) (r : ContentReference) :
    r ∈ references op ↔ r ∈ refs op := by
  rw [mem_refs_op]
  obtain ⟨id, source, parents, context, kind⟩ := op
  show r ∈ references _ ↔ r ∈ refs kind
  cases kind with
  | activity record =>
    rw [mem_refs_activity, mem_refs_kind, ← List.mem_append, ← map_contentAddresses]
    rfl
  | note targetIds rest =>
    rw [references]
    simp [List.mem_eraseDups, mem_payload_references, indexPayloads, refs]
  | gitLink origin rest =>
    rw [references]
    cases hkind : rest.kind <;>
      simp [List.mem_eraseDups, mem_payload_references, indexPayloads, refs, hkind]
  | gitCommit importedRecord rest =>
    rw [references]
    simp [List.mem_eraseDups, mem_payload_references, indexPayloads, refs, or_and_right, exists_or]
  | plain payload =>
    cases payload with
    | file file =>
      rw [references]
      cases hedit : file.edit <;>
        simp [List.mem_eraseDups, mem_payload_references, indexPayloads, refs, hedit, ContentId.toReference,
          BlobRef.toReference, @eq_comm _ _ r]
    | _ =>
      rw [references]
      simp [List.mem_eraseDups, mem_payload_references, indexPayloads, refs]

/-! ## References of a replica -/

/-- The addresses of full hashes are those of some references, each with the lengths given. -/
structure References.Lists (found : References) (listed : ContentReference → Prop) : Prop where
  absent : ∀ hash, found hash = none ↔ ∀ len, ¬ listed ⟨.hash256 hash, len⟩
  lengths : ∀ hash lengths, found hash = some lengths →
    ∀ len, len ∈ lengths ↔ listed ⟨.hash256 hash, some len⟩

omit [AddressHash] in
lemma References.Lists.congr {found : References} {listed listed' : ContentReference → Prop}
    (h : found.Lists listed)
    (hiff : ∀ hash len, listed ⟨.hash256 hash, len⟩ ↔ listed' ⟨.hash256 hash, len⟩) :
    found.Lists listed' where
  absent hash := by simp only [h.absent, hiff]
  lengths hash lengths hfound len := by rw [h.lengths hash lengths hfound, hiff]

omit [AddressHash] in
lemma References.Lists.insert {found : References} {listed : ContentReference → Prop}
    (h : found.Lists listed) (id : ContentId) (len : Option UInt32) :
    (References.insert found id len).Lists fun r => listed r ∨ r = ⟨id, len⟩ := by
  cases id with
  | ofLocal node seq => exact h.congr fun hash len => by simp
  | hash128 hash => exact h.congr fun hash len => by simp
  | hash256 hash =>
    show References.Lists (Function.update found hash
      (some ((found hash).getD ∅ ∪ len.toFinset))) _
    refine ⟨fun other => ?_, fun other lengths hfound l => ?_⟩
    · by_cases hother : other = hash
      · subst hother
        simp only [Function.update_self, reduceCtorEq, false_iff, not_forall, not_not]
        exact ⟨len, .inr rfl⟩
      · simp [hother, h.absent]
    · by_cases hother : other = hash
      · subst hother
        rw [Function.update_self, Option.some.injEq] at hfound
        subst hfound
        rw [Finset.mem_union, Option.mem_toFinset, Option.mem_def]
        cases hold : found other with
        | none =>
          have hnot := (h.absent other).mp hold (some l)
          simp [hnot, eq_comm]
        | some old => simp [h.lengths other old hold, eq_comm]
      · rw [Function.update_of_ne hother] at hfound
        simp [h.lengths other lengths hfound, hother]

omit [AddressHash] in
lemma References.Lists.foldl_addresses {found : References} {listed : ContentReference → Prop}
    (h : found.Lists listed) (addresses : List (ContentId × Option UInt32)) :
    References.Lists (addresses.foldl (fun found (id, len) => References.insert found id len) found)
      fun r => listed r ∨ (r.id, r.len) ∈ addresses := by
  induction addresses generalizing found listed with
  | nil => simpa using h
  | cons first addresses ih =>
    rw [List.foldl_cons]
    apply (ih (h.insert first.1 first.2)).congr
    intro hash len
    rw [List.mem_cons, or_assoc]
    simp only [Prod.ext_iff, ContentReference.mk.injEq]

omit [AddressHash] in
lemma References.Lists.foldl_payloads {found : References} {listed : ContentReference → Prop}
    (h : found.Lists listed) (payloads : List Payload) :
    References.Lists (payloads.foldl (fun found payload =>
      match payload with
      | .blob reference => References.insert found reference.id (some reference.len)
      | .empty | .inline _ => found) found)
      fun r => listed r ∨ r ∈ Payload.references payloads := by
  induction payloads generalizing found listed with
  | nil => simpa [Payload.references] using h
  | cons first payloads ih =>
    rw [List.foldl_cons]
    cases first with
    | empty => exact ih h
    | inline bytes => exact ih h
    | blob reference =>
      apply (ih (h.insert reference.id (some reference.len))).congr
      intro hash len
      rw [or_assoc]
      simp [Payload.references, BlobRef.toReference]

/-- What a replica lists is what the traversal finds. -/
lemma mem_replicaParts (op : Op payloads) (r : ContentReference) :
    ((r.id, r.len) ∈ (replicaParts op.kind).1 ∨ r ∈ Payload.references (replicaParts op.kind).2)
      ↔ r ∈ refs op := by
  rw [mem_refs_op]
  obtain ⟨id, source, parents, context, kind⟩ := op
  show (_ ∈ (replicaParts kind).1 ∨ _ ∈ Payload.references (replicaParts kind).2) ↔ r ∈ refs kind
  cases kind with
  | activity record =>
    have hmem : (r.id, r.len) ∈ record.kind.contentAddresses
        ↔ r ∈ record.kind.contentAddresses.map fun (id, len) => (⟨id, len⟩ : ContentReference) := by
      rw [List.mem_map]
      constructor
      · intro h
        exact ⟨_, h, rfl⟩
      · rintro ⟨address, h, rfl⟩
        exact h
    rw [mem_refs_activity, mem_refs_kind, ← List.mem_append, ← map_contentAddresses, ← hmem]
    simp [replicaParts, Payload.references]
  | note targetIds rest => simp [mem_payload_references, replicaParts, refs]
  | gitLink origin rest =>
    cases hkind : rest.kind <;> simp [mem_payload_references, replicaParts, refs, hkind]
  | gitCommit importedRecord rest =>
    simp [mem_payload_references, replicaParts, refs, or_and_right, exists_or]
  | plain payload =>
    cases payload with
    | file file =>
      obtain ⟨id, len⟩ := r
      cases hedit : file.edit <;>
        simp [mem_payload_references, replicaParts, refs, hedit, eq_comm, or_assoc]
    | _ => simp [mem_payload_references, replicaParts, refs]

/-- A replica wants what the index keeps. -/
lemma replicaReferences_lists (op : Op payloads) :
    (replicaReferences op).Lists fun r => r ∈ references op := by
  have hempty : References.Lists (fun _ => none) fun _ => False := ⟨by simp, by simp⟩
  have h := (hempty.foldl_addresses (replicaParts op.kind).1).foldl_payloads (replicaParts op.kind).2
  refine References.Lists.congr h fun hash len => ?_
  rw [mem_references, ← mem_replicaParts, false_or]

/-! ## Fields of a query -/

omit [AddressHash] in
lemma named_payload {payload : Payload} {r : ContentReference}
    (h : (FieldSource.payload payload).named = some r) : r ∈ payload.refs := by
  cases payload with
  | empty => cases h
  | inline bytes => cases h
  | blob reference =>
    cases h
    exact List.mem_singleton.mpr rfl

omit [AddressHash] in
lemma named_snapshotSource {id : Option ContentId} {r : ContentReference}
    (h : (snapshotSource id).named = some r) : r ∈ refs id := by
  cases id with
  | none => cases h
  | some id =>
    cases h
    simp [refs, ContentId.toReference]

omit [AddressHash] in
lemma named_editSource {edit : FileEdit} {r : ContentReference}
    (h : (editSource edit).named = some r) : r ∈ refs edit := by
  cases edit with
  | none => cases h
  | replaceBytes range bytes => exact List.mem_append_right _ (named_payload h)
  | unifiedDiff diff => exact named_payload h
  | blob reference =>
    cases h
    exact List.mem_singleton.mpr rfl

omit [AddressHash] in
lemma named_payloadFields {fields : List (ContentField × Payload)} {field : ContentField}
    {source : FieldSource} (hfield : (field, source) ∈ payloadFields fields) {r : ContentReference}
    (hnamed : source.named = some r) : r ∈ refs (fields.map Prod.snd) := by
  obtain ⟨⟨field', payload⟩, hmem, heq⟩ := List.mem_map.mp hfield
  cases heq
  exact List.mem_flatMap.mpr ⟨payload, List.mem_map_of_mem hmem, named_payload hnamed⟩

/-- A field of a query names no reference that the traversal misses. -/
lemma named_mem_refs (op : Op payloads) {field : ContentField} {source : FieldSource}
    (hfield : (field, source) ∈ queryFields op.kind) {r : ContentReference}
    (hnamed : source.named = some r) : r ∈ refs op := by
  rw [mem_refs_op]
  obtain ⟨id, source', parents, context, kind⟩ := op
  change (field, source) ∈ queryFields kind at hfield
  show r ∈ refs kind
  cases kind with
  | activity record =>
    rw [mem_refs_activity]
    rcases List.mem_append.mp hfield with hfield | hfield
    · rw [mem_refs_kind, mem_payload_references]
      obtain ⟨⟨field', payload⟩, hmem, heq⟩ := List.mem_map.mp hfield
      cases heq
      refine .inl ⟨payload, List.mem_map_of_mem hmem, named_payload ?_⟩
      split at hnamed
      · cases hnamed
      · exact hnamed
    · cases hkind : record.kind with
      | file file =>
        simp only [hkind, List.mem_cons, List.not_mem_nil, or_false, Prod.mk.injEq] at hfield
        rcases hfield with ⟨-, rfl⟩ | ⟨-, rfl⟩ | ⟨-, rfl⟩
        · have h := named_snapshotSource hnamed
          simp only [refs, List.mem_append] at h ⊢
          simp only [h, true_or, or_true]
        · have h := named_snapshotSource hnamed
          simp only [refs, List.mem_append] at h ⊢
          simp only [h, true_or, or_true]
        · have h := named_editSource hnamed
          simp only [refs, List.mem_append] at h ⊢
          simp only [h, true_or, or_true]
      | _ =>
        rw [hkind] at hfield
        cases hfield
  | note targetIds rest =>
    have h := named_payloadFields hfield hnamed
    simpa [refs] using h
  | gitLink origin rest =>
    cases hkind : rest.kind <;> simp only [queryFields, hkind] at hfield
    case custom payload =>
      have h := named_payloadFields hfield hnamed
      simpa [refs, hkind] using h
    all_goals cases hfield
  | gitCommit importedRecord rest =>
    simp only [queryFields, List.mem_append] at hfield
    rcases hfield with (hfield | hfield) | hfield
    · have h := named_payloadFields hfield hnamed
      simp only [refs, List.map_cons, List.map_nil, List.flatMap_cons, List.flatMap_nil,
        List.mem_append, List.append_nil] at h ⊢
      rcases h with h | h | h | h | h <;> simp only [h, true_or, or_true]
    · obtain ⟨⟨payload, index⟩, hmem, heq⟩ := List.mem_map.mp hfield
      cases heq
      have h : r ∈ refs rest.importedRefs := List.mem_flatMap.mpr
        ⟨payload, List.fst_mem_of_mem_zipIdx hmem, named_payload hnamed⟩
      simp only [refs, List.mem_append] at h ⊢
      simp only [h, true_or, or_true]
    · obtain ⟨⟨payload, index⟩, hmem, heq⟩ := List.mem_map.mp hfield
      cases heq
      have h : r ∈ refs rest.liveRefs := List.mem_flatMap.mpr
        ⟨payload, List.fst_mem_of_mem_zipIdx hmem, named_payload hnamed⟩
      simp only [refs, List.mem_append] at h ⊢
      simp only [h, true_or, or_true]
  | plain payload =>
    cases payload with
    | chainStart name version =>
      simp only [queryFields, List.mem_singleton, Prod.mk.injEq] at hfield
      rw [hfield.2] at hnamed
      cases hnamed
    | file file =>
      simp only [queryFields, List.mem_cons, List.not_mem_nil, or_false, Prod.mk.injEq] at hfield
      rcases hfield with ⟨-, rfl⟩ | ⟨-, rfl⟩ | ⟨-, rfl⟩
      · have h := named_snapshotSource hnamed
        simp only [refs, List.mem_append] at h ⊢
        simp only [h, true_or, or_true]
      · have h := named_snapshotSource hnamed
        simp only [refs, List.mem_append] at h ⊢
        simp only [h, true_or, or_true]
      · have h := named_editSource hnamed
        simp only [refs, List.mem_append] at h ⊢
        simp only [h, or_true]
    | _ =>
      have h := named_payloadFields hfield hnamed
      simpa [refs] using h

/-! ## Resolving fields -/

/-- The index has a state for every reference it keeps for an operation, in their order. -/
lemma indexedContent_eq_ok {entries : ContentReference → Option ContentState} {op : Op payloads}
    {content : List ContentStatus} (h : indexedContent entries op = .ok content) :
    content.map ContentStatus.reference = references op := by
  unfold indexedContent at h
  generalize references op = listed at h ⊢
  induction listed generalizing content with
  | nil =>
    rw [List.mapM_nil] at h
    cases h
    rfl
  | cons reference listed ih =>
    rw [List.mapM_cons] at h
    obtain ⟨found, hfound, h⟩ := bind_eq_ok.mp h
    obtain ⟨rest, hrest, h⟩ := bind_eq_ok.mp h
    cases h
    rw [List.map_cons, ih hrest]
    unfold status at hfound
    cases hstate : entries reference with
    | none =>
      rw [hstate] at hfound
      cases hfound
    | some state =>
      rw [hstate] at hfound
      cases hfound
      rfl

variable {R : Type} {resolve : ContentReference → Except IoError BlobResolution}

/-- A reference that the index keeps is resolved, unless the blob store fails. -/
lemma indexedBytes_eq_error {entry : HistoryEntry R} {reference : ContentReference}
    (hmem : reference ∈ entry.content.map ContentStatus.reference) {error : IoError}
    (h : indexedBytes resolve entry reference = .error error) :
    resolve reference = .error error := by
  unfold indexedBytes at h
  split at h
  · next hnone =>
    obtain ⟨status, hstatus, rfl⟩ := List.mem_map.mp hmem
    exact absurd (List.find?_eq_none.mp hnone status hstatus) (by simp)
  · split at h
    · cases h
    · cases h
    · cases h
    · cases hresolve : resolve reference with
      | error failure =>
        rw [hresolve] at h
        cases h
        rfl
      | ok found =>
        rw [hresolve] at h
        cases found <;> cases h

/-- A field whose reference the index keeps fails only as the blob store does. -/
lemma resolveField_eq_error {entry : HistoryEntry R} {field : ContentField} {source : FieldSource}
    (hmem : ∀ reference, source.named = some reference →
      reference ∈ entry.content.map ContentStatus.reference)
    {error : IoError} (h : resolveField resolve entry field source = .error error) :
    ∃ reference, resolve reference = .error error := by
  unfold resolveField at h
  cases hnamed : source.named with
  | some reference =>
    rw [hnamed] at h
    refine ⟨reference, indexedBytes_eq_error (hmem reference hnamed) ?_⟩
    show indexedBytes resolve entry reference = _
    cases hbytes : indexedBytes resolve entry reference with
    | error failure =>
      simp only [hbytes] at h
      cases h
      rfl
    | ok value =>
      simp only [hbytes] at h
      cases h
  | none =>
    rw [hnamed] at h
    cases source with
    | payload payload =>
      cases payload with
      | empty => cases h
      | inline bytes => cases h
      | blob blob => cases hnamed
    | bytes bytes => cases h
    | reference found => cases hnamed
    | notRecorded => cases h

variable {entries : ContentReference → Option ContentState} {recordRef : R} {op : Op payloads}
  {entry : HistoryEntry R}

lemma historyEntry_eq_ok (h : historyEntry entries recordRef op = .ok entry) :
    entry.operation = op ∧ entry.content.map ContentStatus.reference = references op := by
  obtain ⟨content, hcontent, h⟩ := bind_eq_ok.mp h
  cases h
  exact ⟨rfl, indexedContent_eq_ok hcontent⟩

/-- A selected field names a reference that the index keeps, if any. -/
lemma named_mem_content (h : historyEntry entries recordRef op = .ok entry) {field : ContentField}
    {source : FieldSource} (hfield : (field, source) ∈ queryFields entry.operation.kind)
    (reference : ContentReference) (hnamed : source.named = some reference) :
    reference ∈ entry.content.map ContentStatus.reference := by
  obtain ⟨hop, hcontent⟩ := historyEntry_eq_ok h
  rw [hcontent, mem_references, ← hop]
  exact named_mem_refs entry.operation hfield hnamed

lemma fieldContent_eq_error (h : historyEntry entries recordRef op = .ok entry)
    {field : ContentField} {error : IoError}
    (herror : fieldContent resolve entry field = .error error) :
    ∃ reference, resolve reference = .error error := by
  unfold fieldContent at herror
  refine resolveField_eq_error ?_ herror
  intro reference hnamed
  generalize hfind : (queryFields entry.operation.kind).find? _ = candidate at hnamed
  cases candidate with
  | none => cases hnamed
  | some found =>
    exact named_mem_content h (List.mem_of_find?_eq_some hfind) reference hnamed

omit [AddressHash] in
/-- A traversal that fails does so at one of its elements. -/
lemma exists_of_mapM_eq_error {α β ε : Type} {f : α → Except ε β} {l : List α} {error : ε}
    (h : l.mapM f = .error error) : ∃ a ∈ l, f a = .error error := by
  induction l with
  | nil =>
    rw [List.mapM_nil] at h
    cases h
  | cons a l ih =>
    rw [List.mapM_cons] at h
    cases ha : f a with
    | error failure =>
      rw [ha] at h
      cases h
      exact ⟨a, List.mem_cons_self .., ha⟩
    | ok b =>
      rw [ha] at h
      cases hl : l.mapM f with
      | error failure =>
        rw [hl] at h ih
        cases h
        obtain ⟨a', hmem, ha'⟩ := ih rfl
        exact ⟨a', List.mem_cons_of_mem _ hmem, ha'⟩
      | ok bs =>
        rw [hl] at h
        cases h

lemma contents_eq_error (h : historyEntry entries recordRef op = .ok entry) {error : IoError}
    (herror : contents resolve entry = .error error) :
    ∃ reference, resolve reference = .error error := by
  obtain ⟨⟨field, source⟩, hmem, hfield⟩ := exists_of_mapM_eq_error herror
  exact resolveField_eq_error (named_mem_content h hmem) hfield

end

/-! ## Addresses of payloads -/

namespace Kind

section

variable (write : Field → Payload → Payload)

/-- The mutable references show what the shared ones do. -/
lemma fst_fieldsMut (kind : Kind) : (kind.fieldsMut write).1 = kind.fields := by
  cases kind with
  | session value => rfl
  | turn value =>
    cases houtcome : value.outcome <;> simp [fieldsMut, fields, outcomeMut, borrowed, houtcome]
  | message value =>
    cases houtcome : value.outcome <;> cases hcoverage : value.coverage <;>
      simp [fieldsMut, fields, outcomeMut, borrowed, houtcome, hcoverage, List.flatMap_map]
  | tool value =>
    cases houtcome : value.outcome <;> cases houtput : value.output <;>
      cases hterminal : value.terminal <;>
      simp [fieldsMut, fields, outcomeMut, borrowed, houtcome, houtput, hterminal]
  | file value =>
    cases hedit : value.edit <;> cases hrenamed : value.renamedTo <;>
      simp [fieldsMut, fields, borrowed, hedit, hrenamed]
  | commit importedRecord value => simp [fieldsMut, fields, borrowed, Function.comp_def]
  | note value => rfl
  | author value => rfl
  | link value => rfl
  | original value => rfl

/-- Positions of positions. -/
lemma zipIdx_zipIdx {α : Type} (l : List α) (k : ℕ) :
    (l.zipIdx k).zipIdx k = (l.zipIdx k).map fun x => (x, x.2) := by
  induction l generalizing k with
  | nil => rfl
  | cons a l ih => rw [List.zipIdx_cons, List.zipIdx_cons, ih, List.map_cons]

/-- A write through a mutable reference is seen at the same address, in the same place. -/
lemma fields_fieldsMut (kind : Kind) :
    (kind.fieldsMut write).2.fields = kind.fields.map fun x => (x.1, write x.1 x.2) := by
  cases kind with
  | session value => rfl
  | turn value =>
    cases houtcome : value.outcome <;> simp [fieldsMut, fields, outcomeMut, borrowed, houtcome]
  | message value =>
    cases houtcome : value.outcome <;> cases hcoverage : value.coverage <;>
      simp [fieldsMut, fields, outcomeMut, borrowed, houtcome, hcoverage, List.flatMap_map,
        List.map_flatMap, List.zipIdx_map, zipIdx_zipIdx]
  | tool value =>
    cases houtcome : value.outcome <;> cases houtput : value.output <;>
      cases hterminal : value.terminal <;>
      simp [fieldsMut, fields, outcomeMut, borrowed, houtcome, houtput, hterminal]
  | file value =>
    cases hedit : value.edit <;> cases hrenamed : value.renamedTo <;>
      simp [fieldsMut, fields, borrowed, hedit, hrenamed, List.zipIdx_map, zipIdx_zipIdx,
        Function.comp_def]
  | commit importedRecord value =>
    simp [fieldsMut, fields, borrowed, List.zipIdx_map, zipIdx_zipIdx, Function.comp_def]
  | note value => rfl
  | author value => rfl
  | link value => rfl
  | original value => rfl

end

lemma nodup_map_zipIdx {α β : Type} (l : List α) {f : ℕ → β} (hf : Function.Injective f) :
    (l.zipIdx.map fun x => f x.2).Nodup := by
  have hrange : (l.zipIdx.map fun x => f x.2) = (List.range l.length).map f := by
    rw [List.range_eq_range', ← List.zipIdx_map_snd 0 l, List.map_map]
    rfl
  rw [hrange]
  exact List.nodup_range.map hf

/-- The addresses of the blocks of a message. -/
lemma nodup_blocks {α : Type} (l : List α) :
    (l.zipIdx.flatMap fun x => [Field.messageBlock x.2, Field.mediaType x.2]).Nodup := by
  have hrange : (l.zipIdx.flatMap fun x => [Field.messageBlock x.2, Field.mediaType x.2])
      = (List.range l.length).flatMap fun i => [Field.messageBlock i, Field.mediaType i] := by
    rw [List.range_eq_range', ← List.zipIdx_map_snd 0 l, List.flatMap_map]
  rw [hrange, List.nodup_flatMap]
  refine ⟨by simp, ?_⟩
  apply List.nodup_range.imp
  intro i j hne
  simp [Function.onFun, hne.symm]

/-- No address is repeated. -/
lemma nodup_fields (kind : Kind) : (kind.fields.map Prod.fst).Nodup := by
  cases kind with
  | session value => simp [fields]
  | turn value => cases houtcome : value.outcome <;> simp [fields, houtcome]
  | message value =>
    have hblocks := nodup_blocks value.blocks
    cases houtcome : value.outcome <;> cases hcoverage : value.coverage <;>
      simp [fields, houtcome, hcoverage, List.map_flatMap, List.nodup_append, hblocks]
    all_goals
      rintro field block index - (rfl | rfl) <;> simp
  | tool value =>
    cases houtcome : value.outcome <;> cases houtput : value.output <;>
      cases hterminal : value.terminal <;>
      simp [fields, houtcome, houtput, hterminal]
  | file value =>
    have hedits := nodup_map_zipIdx value.textEdits (f := Field.textEdit)
      fun _ _ h => Field.textEdit.inj h
    cases hedit : value.edit <;> cases hrenamed : value.renamedTo <;>
      simp [fields, hedit, hrenamed, List.nodup_append, Function.comp_def, hedits]
    all_goals
      rintro field edit index - rfl
      simp
  | commit importedRecord value =>
    have himported := nodup_map_zipIdx value.importedRefs (f := Field.gitImportedRef)
      fun _ _ h => Field.gitImportedRef.inj h
    have hlive := nodup_map_zipIdx value.liveRefs (f := Field.gitLiveRef)
      fun _ _ h => Field.gitLiveRef.inj h
    simp [fields, List.nodup_append, Function.comp_def, himported, hlive]
    rintro field value index - rfl field' value' index' - rfl
    simp
  | note value => simp [fields]
  | author value => simp [fields]
  | link value => simp [fields]
  | original value => simp [fields]

end Kind

/-- All inventories of content agree. For every operation the index keeps exactly what the traversal
of the schema finds; a replica wants those of full hashes, with the same lengths; every reference
that a query selects is among them, so that resolving the fields of an accepted operation fails only
as the blob store does. And for every record of schema three `fields` and `fields_mut` list the same
addresses in the same order for the same payloads, no address twice. -/
theorem content_inventories_agree [AddressHash] :
    (∀ (op : Op payloads) (r : ContentReference), r ∈ references op ↔ r ∈ refs op)
    ∧ (∀ op : Op payloads, (replicaReferences op).Lists fun r => r ∈ references op)
    ∧ (∀ (op : Op payloads) (field : ContentField) (source : FieldSource) (r : ContentReference),
      (field, source) ∈ queryFields op.kind → source.named = some r → r ∈ references op)
    ∧ (∀ (R : Type) (entries : ContentReference → Option ContentState) (recordRef : R)
      (op : Op payloads) (entry : HistoryEntry R)
      (resolve : ContentReference → Except IoError BlobResolution) (error : IoError),
      historyEntry entries recordRef op = .ok entry →
      (contents resolve entry = .error error
        ∨ ∃ field, fieldContent resolve entry field = .error error) →
      ∃ reference, resolve reference = .error error)
    ∧ ∀ kind : Kind, (kind.fields.map Prod.fst).Nodup
      ∧ ∀ write : Field → Payload → Payload, (kind.fieldsMut write).1 = kind.fields
        ∧ (kind.fieldsMut write).2.fields = kind.fields.map fun x => (x.1, write x.1 x.2) := by
  refine ⟨mem_references, replicaReferences_lists, ?_, ?_, ?_⟩
  · intro op field source r hfield hnamed
    rw [mem_references]
    exact named_mem_refs op hfield hnamed
  · rintro R entries recordRef op entry resolve error hentry (herror | ⟨field, herror⟩)
    · exact contents_eq_error hentry herror
    · exact fieldContent_eq_error hentry herror
  · intro kind
    exact ⟨kind.nodup_fields, fun write =>
      ⟨Kind.fst_fieldsMut write kind, Kind.fields_fieldsMut write kind⟩⟩

end EditChain.Activity
