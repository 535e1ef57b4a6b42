import EditChain.Activity.Model
import Mathlib.Data.Finset.Option

/-!
# Inventories of content

Every place of the schema that may refer to content is listed several times over: the payloads of a
record of schema three, shared and mutable, the references that the index keeps for an operation,
those that a replica wants, and the fields that a query selects. Each list is written by hand.
-/

namespace EditChain.Activity

open Migration (AddressHash Op OpKind)

/-! ## Payloads of schema three -/

/-- Address of a payload in a schema-three record. -/
inductive Field where
  | label
  | metadata
  | messageBlock (index : ℕ)
  | mediaType (index : ℕ)
  | summaryAnchors
  | callId
  | toolName
  | arguments
  | output
  | outputType
  | command
  | cwd
  | outcome
  | path
  | renamedTo
  | edit
  | textEdit (index : ℕ)
  | content
  | code
  | role
  | gitName (committer : Bool)
  | gitEmail (committer : Bool)
  | gitImportedRef (index : ℕ)
  | gitLiveRef (index : ℕ)
deriving DecidableEq, Repr

namespace Kind

/-- `fields`: payloads in schema order. -/
def fields : Kind → List (Field × Payload)
  | .session value => [(.label, value.label), (.metadata, value.settings)]
  | .turn value => value.outcome.toList.map fun result => (.outcome, result.detail)
  | .message value =>
    (value.blocks.zipIdx.flatMap fun (block, index) =>
      [(.messageBlock index, block.content), (.mediaType index, block.mediaType)])
    ++ (value.coverage.toList.map fun coverage => (.summaryAnchors, coverage.anchors))
    ++ (value.outcome.toList.map fun result => (.outcome, result.detail))
  | .tool value =>
    [(.callId, value.nativeCall), (.toolName, value.name), (.arguments, value.arguments)]
    ++ (match value.output with
      | some output => [(.output, output.content), (.outputType, output.mediaType)]
      | none => [])
    ++ (match value.terminal with
      | some terminal => [(.command, terminal.command), (.cwd, terminal.cwd)]
      | none => [])
    ++ (value.outcome.toList.map fun result => (.outcome, result.detail))
  | .file value =>
    [(.path, value.name)]
    ++ (value.renamedTo.toList.map fun path => (.renamedTo, path))
    ++ (value.textEdits.zipIdx.map fun (edit, index) => (.textEdit index, edit.text))
    ++ (match value.edit with
      | .replaceBytes _ bytes | .unifiedDiff bytes => [(.edit, bytes)]
      | .none | .blob _ => [])
  | .commit _ value =>
    [(.content, value.message), (.gitName false, value.author.name),
      (.gitEmail false, value.author.email), (.gitName true, value.committer.name),
      (.gitEmail true, value.committer.email)]
    ++ (value.importedRefs.zipIdx.map fun (value, index) => (.gitImportedRef index, value))
    ++ (value.liveRefs.zipIdx.map fun (value, index) => (.gitLiveRef index, value))
  | .note value => [(.content, value.content), (.code, value.code)]
  | .author value =>
    [(.label, value.label), (.role, value.nativeRole), (.metadata, value.metadata)]
  | .link value => [(.content, value.content)]
  | .original value => [(.content, value.bytes)]

section

variable (write : Field → Payload → Payload)

/-- A mutable reference to a payload: what it shows, and what is there after a write. -/
def borrowed (field : Field) (payload : Payload) : (Field × Payload) × Payload :=
  ((field, payload), write field payload)

/-- Mutable references to the payload of a completion, if there is one. -/
def outcomeMut : Option Completion → List (Field × Payload) × Option Completion
  | none => ([], none)
  | some result =>
    let (shown, detail) := borrowed write .outcome result.detail
    ([shown], some { result with detail := detail })

/-- `fields_mut`: what the mutable references show, and the kind after a write through each. -/
def fieldsMut : Kind → List (Field × Payload) × Kind
  | .session value =>
    let (a, label) := borrowed write .label value.label
    let (b, settings) := borrowed write .metadata value.settings
    ([a, b], .session { value with label := label, settings := settings })
  | .turn value =>
    let (shown, outcome) := outcomeMut write value.outcome
    (shown, .turn { value with outcome := outcome })
  | .message value =>
    let blocks := value.blocks.zipIdx.map fun (block, index) =>
      let (a, content) := borrowed write (.messageBlock index) block.content
      let (b, mediaType) := borrowed write (.mediaType index) block.mediaType
      ([a, b], ({ block with content := content, mediaType := mediaType } : ContentUpdate))
    let coverage := value.coverage.map fun coverage =>
      let (a, anchors) := borrowed write .summaryAnchors coverage.anchors
      (a, ({ coverage with anchors := anchors } : Coverage))
    let (shown, outcome) := outcomeMut write value.outcome
    ((blocks.flatMap Prod.fst) ++ (coverage.map Prod.fst).toList ++ shown,
      .message { value with
        blocks := blocks.map Prod.snd, coverage := coverage.map Prod.snd, outcome := outcome })
  | .tool value =>
    let (a, nativeCall) := borrowed write .callId value.nativeCall
    let (b, name) := borrowed write .toolName value.name
    let (c, arguments) := borrowed write .arguments value.arguments
    let output : List (Field × Payload) × Option ContentUpdate :=
      match value.output with
      | some output =>
        let (d, content) := borrowed write .output output.content
        let (e, mediaType) := borrowed write .outputType output.mediaType
        ([d, e], some { output with content := content, mediaType := mediaType })
      | none => ([], none)
    let terminal : List (Field × Payload) × Option Terminal :=
      match value.terminal with
      | some terminal =>
        let (f, command) := borrowed write .command terminal.command
        let (g, cwd) := borrowed write .cwd terminal.cwd
        ([f, g], some { terminal with command := command, cwd := cwd })
      | none => ([], none)
    let (shown, outcome) := outcomeMut write value.outcome
    ([a, b, c] ++ output.1 ++ terminal.1 ++ shown,
      .tool { value with
        nativeCall := nativeCall, name := name, arguments := arguments, output := output.2,
        terminal := terminal.2, outcome := outcome })
  | .file value =>
    let (a, name) := borrowed write .path value.name
    let renamedTo := value.renamedTo.map fun path => borrowed write .renamedTo path
    let textEdits := value.textEdits.zipIdx.map fun (edit, index) =>
      let (b, text) := borrowed write (.textEdit index) edit.text
      (b, ({ edit with text := text } : TextEdit))
    let edit : List (Field × Payload) × FileEdit :=
      match value.edit with
      | .replaceBytes range bytes =>
        let (c, bytes) := borrowed write .edit bytes
        ([c], .replaceBytes range bytes)
      | .unifiedDiff bytes =>
        let (c, bytes) := borrowed write .edit bytes
        ([c], .unifiedDiff bytes)
      | .none => ([], .none)
      | .blob reference => ([], .blob reference)
    ([a] ++ (renamedTo.map Prod.fst).toList ++ textEdits.map Prod.fst ++ edit.1,
      .file { value with
        name := name, renamedTo := renamedTo.map Prod.snd, textEdits := textEdits.map Prod.snd,
        edit := edit.2 })
  | .commit importedRecord value =>
    let (a, text) := borrowed write .content value.message
    let (b, name) := borrowed write (.gitName false) value.author.name
    let (c, email) := borrowed write (.gitEmail false) value.author.email
    let (d, name') := borrowed write (.gitName true) value.committer.name
    let (e, email') := borrowed write (.gitEmail true) value.committer.email
    let importedRefs := value.importedRefs.zipIdx.map fun (value, index) =>
      borrowed write (.gitImportedRef index) value
    let liveRefs := value.liveRefs.zipIdx.map fun (value, index) =>
      borrowed write (.gitLiveRef index) value
    ([a, b, c, d, e] ++ importedRefs.map Prod.fst ++ liveRefs.map Prod.fst,
      .commit importedRecord { value with
        message := text, author := { value.author with name := name, email := email },
        committer := { value.committer with name := name', email := email' },
        importedRefs := importedRefs.map Prod.snd, liveRefs := liveRefs.map Prod.snd })
  | .note value =>
    let (a, content) := borrowed write .content value.content
    let (b, code) := borrowed write .code value.code
    ([a, b], .note { value with content := content, code := code })
  | .author value =>
    let (a, label) := borrowed write .label value.label
    let (b, nativeRole) := borrowed write .role value.nativeRole
    let (c, metadata) := borrowed write .metadata value.metadata
    ([a, b, c], .author { value with
      label := label, nativeRole := nativeRole, metadata := metadata })
  | .link value =>
    let (a, content) := borrowed write .content value.content
    ([a], .link { value with content := content })
  | .original value =>
    let (a, bytes) := borrowed write .content value.bytes
    ([a], .original { value with bytes := bytes })

end

/-- `content_addresses`: all blob and revision addresses, with lengths when supplied. -/
def contentAddresses (kind : Kind) : List (ContentId × Option UInt32) :=
  (kind.fields.filterMap fun (_, payload) =>
    match payload with
    | .blob reference => some (reference.id, some reference.len)
    | .empty | .inline _ => none)
  ++ match kind with
    | .file value =>
      ((value.before.toList ++ value.after.toList).map fun id => (id, none))
      ++ match value.edit with
        | .blob reference => [(reference.id, some reference.len)]
        | _ => []
    | _ => []

end Kind

/-! ## References of the index -/

/-- `ContentReference`: a reference with its recorded length when present. -/
structure ContentReference where
  id : ContentId
  len : Option UInt32
deriving DecidableEq, Repr

/-- `ContentReference::from(BlobRef)`. -/
def BlobRef.toReference (reference : BlobRef) : ContentReference := ⟨reference.id, some reference.len⟩

/-- `ContentReference::from(ContentId)`. -/
def ContentId.toReference (id : ContentId) : ContentReference := ⟨id, none⟩

variable [AddressHash]

/-- `payloads` of `references.rs`. -/
def indexPayloads : OpKind payloads OpId → List Payload
  | .activity record => record.kind.fields.map Prod.snd
  | .plain (.chainStart _ _) => []
  | .plain (.actor label role) => [label, role]
  | .plain (.session _ _ label metadata) => [label, metadata]
  | .plain (.message content contentType) => [content, contentType]
  | .plain (.tool toolCallId toolName _ content) => [toolCallId, toolName, content]
  | .plain (.command commandId content _) => [commandId, content]
  | .plain (.file op) =>
    match op.edit with
    | .none | .blob _ => []
    | .replaceBytes _ bytes | .unifiedDiff bytes => [bytes]
  | .plain (.reflection _ _ _ summary anchors) => [summary, anchors]
  | .plain (.ofImport rawRef _) => [rawRef]
  | .note _ op => [op.content]
  | .plain (.error code message) => [code, message]
  | .plain (.unknown _ rawBytes) => [rawBytes]
  | .gitCommit _ op =>
    [op.author.name, op.author.email, op.committer.name, op.committer.email, op.message]
    ++ op.importedRefs ++ op.liveRefs
  | .gitLink _ op =>
    match op.kind with
    | .custom payload => [payload]
    | .basedOn | .checkpoint | .committedAs | .producedBy | .mentions => []

/-- The references of the payloads that have one. -/
def Payload.references (payloads : List Payload) : List ContentReference :=
  payloads.filterMap fun payload =>
    match payload with
    | .blob reference => some reference.toReference
    | .empty | .inline _ => none

/-- `references` of the index: the references of an operation; outside schema three every one
once. -/
def references (op : Op payloads) : List ContentReference :=
  match op.kind with
  | .activity record => record.kind.contentAddresses.map fun (id, len) => ⟨id, len⟩
  | kind =>
    let result := (match kind with
      | .plain (.file file) =>
        file.base.toList.map ContentId.toReference ++ file.after.toList.map ContentId.toReference
        ++ match file.edit with
          | .blob reference => [reference.toReference]
          | _ => []
      | _ => []) ++ Payload.references (indexPayloads kind)
    result.eraseDups

/-! ## References of a replica -/

/-- `References`: the lengths recorded for every address. -/
abbrev References := Digest → Option (Finset UInt32)

/-- `insert` of `content.rs`. -/
def References.insert (found : References) (id : ContentId) (length : Option UInt32) : References :=
  match id with
  | .hash256 hash => Function.update found hash
      (some ((found hash).getD ∅ ∪ length.toFinset))
  | .ofLocal _ _ | .hash128 _ => found

/-- The addresses that the operation names apart from payloads, and its payloads. -/
def replicaParts : OpKind payloads OpId → List (ContentId × Option UInt32) × List Payload
  | .activity record => (record.kind.contentAddresses, [])
  | .plain (.chainStart _ _) => ([], [])
  | .plain (.session _ _ label metadata) => ([], [label, metadata])
  | .plain (.actor label role) => ([], [label, role])
  | .plain (.message content contentType) => ([], [content, contentType])
  | .plain (.tool toolCallId toolName _ content) => ([], [toolCallId, toolName, content])
  | .plain (.command commandId content _) => ([], [commandId, content])
  | .plain (.file value) =>
    let addresses := (value.base.toList ++ value.after.toList).map fun id => (id, none)
    match value.edit with
    | .none => (addresses, [])
    | .replaceBytes _ bytes | .unifiedDiff bytes => (addresses, [bytes])
    | .blob reference => (addresses ++ [(reference.id, some reference.len)], [])
  | .plain (.reflection _ _ _ summary anchors) => ([], [summary, anchors])
  | .plain (.ofImport rawRef _) => ([], [rawRef])
  | .note _ value => ([], [value.content])
  | .plain (.error code message) => ([], [code, message])
  | .plain (.unknown _ rawBytes) => ([], [rawBytes])
  | .gitLink _ value =>
    match value.kind with
    | .custom payload => ([], [payload])
    | _ => ([], [])
  | .gitCommit _ value =>
    ([], [value.author.name, value.author.email, value.committer.name, value.committer.email,
      value.message] ++ value.importedRefs ++ value.liveRefs)

/-- `references` of `content.rs`. -/
def replicaReferences (op : Op payloads) : References :=
  let (addresses, payloads) := replicaParts op.kind
  let found := addresses.foldl (fun found (id, len) => References.insert found id len) fun _ => none
  payloads.foldl (fun found payload =>
    match payload with
    | .blob reference => References.insert found reference.id (some reference.len)
    | .empty | .inline _ => found) found

/-! ## Fields of a query -/

/-- A content-bearing field in the operation schema. -/
inductive ContentField where
  | record (field : Field)
  | chainName
  | actorLabel
  | actorRole
  | sessionLabel
  | sessionMetadata
  | messageContent
  | messageContentType
  | toolCallId
  | toolName
  | toolContent
  | commandId
  | commandContent
  | fileBase
  | fileAfter
  | fileEdit
  | reflectionSummary
  | reflectionAnchors
  | importRaw
  | noteContent
  | errorCode
  | errorMessage
  | unknownRaw
  | gitAuthorName
  | gitAuthorEmail
  | gitCommitterName
  | gitCommitterEmail
  | gitMessage
  | gitImportedRef (index : ℕ)
  | gitLiveRef (index : ℕ)
  | gitLinkCustom
deriving DecidableEq, Repr

/-- `FieldSource`. -/
inductive FieldSource where
  | payload (payload : Payload)
  | bytes (bytes : Bytes)
  | reference (reference : ContentReference)
  | notRecorded
deriving DecidableEq, Repr

/-- `payloads` of `fields.rs`. -/
def payloadFields (fields : List (ContentField × Payload)) : List (ContentField × FieldSource) :=
  fields.map fun (field, payload) => (field, .payload payload)

/-- A snapshot of a file, when it is recorded. -/
def snapshotSource (id : Option ContentId) : FieldSource :=
  id.elim .notRecorded fun id => .reference id.toReference

/-- The edit of a file. -/
def editSource : FileEdit → FieldSource
  | .none => .notRecorded
  | .blob reference => .reference reference.toReference
  | .replaceBytes _ bytes | .unifiedDiff bytes => .payload bytes

/-- `fields` of `fields.rs`. -/
def queryFields : OpKind payloads OpId → List (ContentField × FieldSource)
  | .activity record =>
    (record.kind.fields.map fun (field, payload) =>
      (.record field, if payload = .empty then .notRecorded else .payload payload))
    ++ match record.kind with
      | .file file => [(.fileBase, snapshotSource file.before),
          (.fileAfter, snapshotSource file.after), (.fileEdit, editSource file.edit)]
      | _ => []
  | .plain (.chainStart name _) => [(.chainName, .bytes name)]
  | .plain (.actor label role) => payloadFields [(.actorLabel, label), (.actorRole, role)]
  | .plain (.session _ _ label metadata) =>
    payloadFields [(.sessionLabel, label), (.sessionMetadata, metadata)]
  | .plain (.message content contentType) =>
    payloadFields [(.messageContent, content), (.messageContentType, contentType)]
  | .plain (.tool toolCallId toolName _ content) =>
    payloadFields [(.toolCallId, toolCallId), (.toolName, toolName), (.toolContent, content)]
  | .plain (.command commandId content _) =>
    payloadFields [(.commandId, commandId), (.commandContent, content)]
  | .plain (.file op) =>
    [(.fileBase, snapshotSource op.base), (.fileAfter, snapshotSource op.after),
      (.fileEdit, editSource op.edit)]
  | .plain (.reflection _ _ _ summary anchors) =>
    payloadFields [(.reflectionSummary, summary), (.reflectionAnchors, anchors)]
  | .plain (.ofImport rawRef _) => payloadFields [(.importRaw, rawRef)]
  | .note _ op => payloadFields [(.noteContent, op.content)]
  | .plain (.error code message) =>
    payloadFields [(.errorCode, code), (.errorMessage, message)]
  | .plain (.unknown _ rawBytes) => payloadFields [(.unknownRaw, rawBytes)]
  | .gitCommit _ op =>
    payloadFields [(.gitAuthorName, op.author.name), (.gitAuthorEmail, op.author.email),
      (.gitCommitterName, op.committer.name), (.gitCommitterEmail, op.committer.email),
      (.gitMessage, op.message)]
    ++ (op.importedRefs.zipIdx.map fun (payload, i) => (.gitImportedRef i, .payload payload))
    ++ (op.liveRefs.zipIdx.map fun (payload, i) => (.gitLiveRef i, .payload payload))
  | .gitLink _ op =>
    match op.kind with
    | .custom payload => payloadFields [(.gitLinkCustom, payload)]
    | .basedOn | .checkpoint | .committedAs | .producedBy | .mentions => []

/-! ## Resolving fields -/

/-- Availability at the last refresh of the index. -/
inductive ContentState where
  | available
  | missing
  | corrupt
  | unresolvable
deriving DecidableEq, Repr

structure ContentStatus where
  reference : ContentReference
  state : ContentState
deriving DecidableEq, Repr

/-- The outcome of resolving content against a store. -/
inductive BlobResolution where
  | found (bytes : Bytes)
  | missing
  | corrupt
  | unresolvable
deriving DecidableEq, Repr

/-- Byte availability without replacing unknown content with an empty file. -/
inductive ContentValue where
  | available (bytes : Bytes)
  | notRecorded
  | missing
  | corrupt
  | unresolvable
deriving DecidableEq, Repr

/-- An accepted operation, its record and the content it depends on. -/
structure HistoryEntry (R : Type) where
  operation : Op payloads
  recordRef : R
  content : List ContentStatus

structure ContentResult (R : Type) where
  recordRef : R
  field : ContentField
  reference : Option ContentReference
  value : ContentValue

/-- `ContentIndex::status`, where `entries` has the state of every dependency. -/
def status (entries : ContentReference → Option ContentState) (reference : ContentReference) :
    Option ContentStatus :=
  (entries reference).map fun state => ⟨reference, state⟩

/-- `ChainIndex::content` of an accepted operation. -/
def indexedContent (entries : ContentReference → Option ContentState) (op : Op payloads) :
    Except IoError (List ContentStatus) :=
  (references op).mapM fun reference =>
    match status entries reference with
    | some found => .ok found
    | none => .error (invalid "missing indexed content dependency")

/-- `operation`, for an operation that the index accepts and whose record is `recordRef`. -/
def historyEntry {R : Type} (entries : ContentReference → Option ContentState) (recordRef : R)
    (op : Op payloads) : Except IoError (HistoryEntry R) := do
  let content ← indexedContent entries op
  return { operation := op, recordRef := recordRef, content := content }

/-- The reference that a source names. -/
def FieldSource.named : FieldSource → Option ContentReference
  | .reference found => some found
  | .payload (.blob blob) => some blob.toReference
  | .payload .empty | .payload (.inline _) | .bytes _ | .notRecorded => none

section

variable {R : Type} (resolve : ContentReference → Except IoError BlobResolution)

/-- `indexed_bytes`, with what the blob store answers. -/
def indexedBytes (entry : HistoryEntry R) (reference : ContentReference) :
    Except IoError ContentValue :=
  match entry.content.find? fun status => decide (status.reference = reference) with
  | none => .error (invalid "field lacks indexed content dependency")
  | some status =>
    match status.state with
    | .missing => .ok .missing
    | .corrupt => .ok .corrupt
    | .unresolvable => .ok .unresolvable
    | .available => do
      match ← resolve reference with
      | .found bytes => return .available bytes
      | .missing => return .missing
      | .corrupt => return .corrupt
      | .unresolvable => return .unresolvable

/-- `resolve_field`. -/
def resolveField (entry : HistoryEntry R) (field : ContentField) (source : FieldSource) :
    Except IoError (ContentResult R) := do
  let value ← match source.named with
    | some reference => indexedBytes resolve entry reference
    | none =>
      match source with
      | .bytes bytes | .payload (.inline bytes) => pure (.available bytes)
      | .payload .empty => pure (.available [])
      | .notRecorded => pure .notRecorded
      | .reference _ | .payload (.blob _) => throw (invalid "missing field content reference")
  return ⟨entry.recordRef, field, source.named, value⟩

/-- `contents`: every recorded field in schema order. -/
def contents (entry : HistoryEntry R) : Except IoError (List (ContentResult R)) :=
  (queryFields entry.operation.kind).mapM fun (field, source) =>
    resolveField resolve entry field source

/-- The field that a query means: three names are shared with schema three. -/
def selectedField (kind : OpKind payloads OpId) (field : ContentField) : ContentField :=
  match kind with
  | .activity _ =>
    match field with
    | .toolName => .record .toolName
    | .gitImportedRef index => .record (.gitImportedRef index)
    | .gitLiveRef index => .record (.gitLiveRef index)
    | field => field
  | _ => field

/-- `field_content`. -/
def fieldContent (entry : HistoryEntry R) (field : ContentField) :
    Except IoError (ContentResult R) :=
  let selected := selectedField entry.operation.kind field
  let source := ((queryFields entry.operation.kind).find? fun (candidate, _) =>
    decide (candidate = selected)).elim .notRecorded Prod.snd
  resolveField resolve entry field source

end

end EditChain.Activity
