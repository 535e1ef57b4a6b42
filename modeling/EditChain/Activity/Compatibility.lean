import EditChain.Activity.Model
import EditChain.Lib.ByteString

/-!
# Conversion to schema three

An operation of the older schemas is read as a record of schema three under its own identity by
`view`. `upgrade` converts it to a new physical record: every operation identity in the record is
mapped to that of the converted operation, and the old address is kept beside it. Logical identities
are derived from names and bytes, and are the same in both.
-/

namespace EditChain.Activity

open ByteString
open Migration (SourceId ParentSet AddressHash Op OpKind)

/-- BLAKE3 in its key derivation mode. -/
class KeyDerivation where
  deriveKey : String → Bytes → BitVec 256

variable [KeyDerivation]

/-- `upgrade_id`: stable new address for a schema-three conversion of an old operation. -/
def upgradeId (id : OpId) : OpId :=
  KeyDerivation.deriveKey "editchain.operation-schema3.v3" (idBytes id)

namespace ItemId

/-- Derive an identity from a namespace and unambiguous native bytes. -/
def derived (space : String) (bytes : Bytes) : ItemId :=
  ⟨KeyDerivation.deriveKey "editchain.logical-item.v1"
    (leBytes 8 space.utf8ByteSize ++ space.toUTF8.toList ++ bytes)⟩

/-- Deterministic adapter for historical numeric identities. -/
def legacy (kind : String) (id : UInt64) : ItemId := derived kind (leBytes 8 id.toNat)

end ItemId

/-! ## Tags and clocks -/

/-- Imported record. -/
def tagImport : UInt64 := (1 : UInt64) <<< 6

/-- Private or internal operation. -/
def tagPrivate : UInt64 := (1 : UInt64) <<< 10

/-- The raw source record carried no usable timestamp. -/
def tagSourceTimeUnknown : UInt64 := (1 : UInt64) <<< 15

/-- `matches_any`. -/
def matchesAny (tags filter : UInt64) : Bool := tags &&& filter ≠ 0

/-- `observed_unix_ms` of a clock. -/
def clockObservedUnixMs : Clock → Option UInt64
  | .none | .lamport _ => none
  | .unixMs ms | .hybrid ms _ => if ms = 0 then none else some ms

/-! ## Kinds -/

/-- `block`. -/
def block (id : OpId) (content mediaType : Payload) (mode : UpdateMode) : ContentUpdate where
  block := .derived "legacy-block" (idBytes id)
  position := some 0
  mode := mode
  previous := none
  mediaType := mediaType
  content := content

/-- `completion`. -/
def completion : Completion := ⟨.unknown, .empty⟩

/-- `tool`. -/
def tool (id : OpId) (native name content : Payload) (stage : Stage) (terminal : Bool) : Kind :=
  let started := stage = .started
  .tool {
    nativeCall := native
    name := name
    stage := stage
    attempt := .derived "legacy-call" (idBytes id)
    parentCall := none
    arguments := if started then content else .empty
    channel := .result
    output :=
      if started then none
      else some (block id content .empty (if stage = .updated then .append else .replace))
    terminal :=
      if terminal then some ⟨if started then content else .empty, .empty, none⟩ else none
    outcome := if stage = .finished then some completion else none }

/-- The bytes of `terminal`. -/
def terminalName : Payload := .inline "terminal".toUTF8.toList

/-- `format!("{:?}")` of a relationship. -/
def NoteRelationship.debug : NoteRelationship → String
  | .corrects => "Corrects"
  | .supersedes => "Supersedes"
  | .rejects => "Rejects"
  | .redacts => "Redacts"
  | .explains => "Explains"
  | .forkOf => "ForkOf"
  | .subagentOf => "SubagentOf"
  | .reconnectsTo => "ReconnectsTo"
  | .occurrenceOf => "OccurrenceOf"
  | .providerParent => "ProviderParent"
  | .logicalParent => "LogicalParent"
  | .forkedFrom => "ForkedFrom"
  | .spawnedBy => "SpawnedBy"
  | .contains => "Contains"
  | .toolResultOf => "ToolResultOf"
  | .providerEvidence => "ProviderEvidence"

/-- The relation of a link to a Git object. -/
def GitLinkKind.relation : GitLinkKind → String
  | .basedOn => "based_on"
  | .checkpoint => "checkpoint"
  | .committedAs => "committed_as"
  | .producedBy => "produced_by"
  | .mentions => "mentions"
  | .custom _ => "custom"

/-- `ToolStage` in the new vocabulary. -/
def ToolStage.stage : ToolStage → Stage
  | .start => .started
  | .delta => .updated
  | .finish => .finished

/-- `CommandStage` in the new vocabulary. -/
def CommandStage.stage : CommandStage → Stage
  | .start => .started
  | .output => .updated
  | .finish => .finished

/-- The action on a file at an old stage. -/
def FileStage.action : FileStage → FileAction
  | .observed => .snapshot
  | .proposed | .applied => .change
  | .saved => .save
  | .deleted => .delete

/-- Whether an old stage says that a change was proposed or applied. -/
def FileStage.change : FileStage → Option ChangeState
  | .proposed => some .proposed
  | .applied | .deleted => some .applied
  | .observed | .saved => none

/-- The kinds that refer to no other operation, in the new vocabulary. -/
def plainKind (id : OpId) : PlainKind → Option Kind
  | .chainStart _ _ => none
  | .actor label role => some (.author ⟨label, .unknown, role, .empty⟩)
  | .session _ parent label metadata =>
    some (.session {
      action := .snapshot, label := label, settings := metadata, participants := []
      parent := parent.map (ItemId.legacy "session"), initiatedBy := none })
  | .message content contentType =>
    some (.message {
      category := .text, stage := .snapshot, audience := []
      blocks := [block id content contentType .replace], coverage := none, outcome := none })
  | .reflection _ covers window summary anchors =>
    some (.message {
      category := .summary, stage := .snapshot, audience := []
      blocks := [block id summary .empty .replace]
      coverage := some ⟨[], covers, some window, anchors⟩, outcome := none })
  | .tool toolCallId toolName stage content =>
    some (tool id toolCallId toolName content stage.stage false)
  | .command commandId content stage =>
    some (tool id commandId terminalName content stage.stage true)
  | .file value =>
    some (.file {
      action := value.stage.action, path := value.path, name := .empty, renamedTo := none
      revision := some (.derived "revision" (idBytes id)), before := value.base
      after := value.after, edit := value.edit, textEdits := [], change := value.stage.change
      causedBy := none, ranges := [], textRanges := [], durationMs := none })
  | .ofImport rawRef rawHash => some (.original ⟨"unknown", none, [], none, rawRef, rawHash⟩)
  | .unknown kindDiscriminant rawBytes =>
    some (.original
      ⟨"unknown", some ("legacy-kind-" ++ toString kindDiscriminant.toNat), [], none, rawBytes, none⟩)
  | .error code message => some (.note ⟨.error, [], [], 1, message, code⟩)

variable [AddressHash]

/-- `kind`. -/
def kind (op : Op payloads) : Option Kind :=
  match op.kind with
  | .plain payload => plainKind op.id payload
  | .note targetIds value =>
    match value.relationship with
    | .corrects => some (.note ⟨.correction, targetIds, [], 1, value.content, .empty⟩)
    | .explains => some (.note ⟨.comment, targetIds, [], 1, value.content, .empty⟩)
    | _ => some (.link {
        source := .operation (op.parents.toList.head?.getD op.id)
        relation := value.relationship.debug
        targets := targetIds.map Entity.operation
        content := value.content })
  | .gitCommit importedRecord value => some (.commit importedRecord value)
  | .gitLink origin value =>
    some (.link {
      source := .operation origin
      relation := value.kind.relation
      targets := [.git value.targetRepo value.targetOid]
      content := match value.kind with
        | .custom bytes => bytes
        | _ => .empty })
  | .activity record => some record.kind

/-! ## Records -/

/-- `call_item`. -/
def callItem (record : Operation) (native : Payload) : ItemId :=
  match native with
  | .inline bytes =>
    if bytes = [] then record.item
    else
      let owner := (record.session.or record.turn).getD record.recorder
      .derived "call" (idBytes owner.id ++ bytes)
  | _ => record.item

/-- `logical_item`. -/
def logicalItem (record : Operation) (op : Op payloads) : ItemId :=
  match op.kind with
  | .plain (.actor _ _) => .legacy "author" op.context.actor
  | .plain (.session id _ _ _) => .legacy "session" id
  | .plain (.tool toolCallId _ _ _) => callItem record toolCallId
  | .plain (.command commandId _ _) => callItem record commandId
  | _ => record.item

/-- `observed_unix_ms` of an operation. -/
def observedUnixMs (op : Op payloads) : Option UInt64 :=
  match op.kind with
  | .activity record => record.timeMs
  | _ =>
    if matchesAny op.context.tags tagSourceTimeUnknown then none
    else clockObservedUnixMs op.context.clock

/-- The envelope of `view`, before the record is completed. -/
def envelope (op : Op payloads) (kind : Kind) : Operation where
  id := op.id
  item := .derived "legacy-item" (idBytes op.id)
  author := if op.context.actor ≠ 0 then some (.legacy "author" op.context.actor) else none
  recorder := .legacy "legacy-recorder" (op.source.elim 0 SourceId.node)
  session := match op.context.scope with
    | .session id => some (.legacy "session" id)
    | _ => none
  turn := match op.context.scope with
    | .turn id => some (.legacy "turn" id)
    | _ => none
  timeMs := observedUnixMs op
  sequence := op.source.map SourceId.seq
  parents := op.parents.toList
  causes := []
  original := none
  legacy := none
  kind := kind

/-- `matches!(op.kind, OpKind::Import(_))`. -/
def isImport (op : Op payloads) : Bool :=
  match op.kind with
  | .plain (.ofImport _ _) => true
  | _ => false

/-- The captured input of an imported operation is its first parent. -/
def withOriginal (op : Op payloads) (record : Operation) : Operation :=
  if matchesAny op.context.tags tagImport ∧ ¬ isImport op then
    { record with original := op.parents.toList.head?.map fun id => ⟨id, "legacy-to-schema3-v3"⟩ }
  else record

/-- A private reflection is reasoning, and its anchors are a second block. -/
def withReasoning (op : Op payloads) (record : Operation) : Operation :=
  match op.kind, record.kind with
  | .plain (.reflection _ _ _ _ anchors), .message value =>
    if matchesAny op.context.tags tagPrivate then
      { record with kind := .message { value with
          category := .reasoning
          coverage := none
          blocks := if anchors ≠ .empty then
              value.blocks ++ [{ block op.id anchors .empty .replace with position := some 1 }]
            else value.blocks } }
    else record
  | _, _ => record

/-- The identity of a message block: that of its item and its position. -/
def messageBlock (item : ItemId) (position : ℕ) : ItemId :=
  .derived "message-block" (idBytes item.id ++ (toString position).toUTF8.toList)

/-- The attempt of a call and the blocks of a message follow the logical item. -/
def withItem (item : ItemId) (record : Operation) : Operation :=
  { record with
    item := item
    kind := match record.kind with
      | .tool value => .tool { value with attempt := item }
      | .message value => .message { value with
          blocks := value.blocks.mapIdx fun position block =>
            { block with block := messageBlock item position } }
      | kind => kind }

namespace Operation

/-- Present an old operation in the new vocabulary without changing its ID. -/
def view (op : Op payloads) : Option Operation :=
  match op.kind with
  | .activity record => some record
  | _ => do
    let kind ← Activity.kind op
    let record := withReasoning op (withOriginal op (envelope op kind))
    return withItem (logicalItem record op) record

/-- `remap_entity`. -/
def remapEntity : Entity → Entity
  | .operation id => .operation (upgradeId id)
  | entity => entity

/-- The references of a kind that `upgrade` maps. -/
def upgradeKind : Kind → Kind
  | .note note => .note { note with targets := note.targets.map upgradeId }
  | .link link => .link { link with
      source := remapEntity link.source, targets := link.targets.map remapEntity }
  | .commit importedRecord commit => .commit (importedRecord.map upgradeId) commit
  | .session session => .session { session with initiatedBy := session.initiatedBy.map upgradeId }
  | .message message => .message { message with
      coverage := message.coverage.map fun coverage =>
        { coverage with operations := coverage.operations.map upgradeId } }
  | kind => kind

/-- The old address of an operation. -/
def legacyMapping (op : Op payloads) : LegacyMapping where
  operation := op.id
  folded := []
  source := op.source
  actor := op.context.actor
  clock := op.context.clock
  scope := op.context.scope
  tags := op.context.tags

/-- Convert to a new physical record with an explicit old-address mapping. -/
def upgrade (op : Op payloads) : Option Operation :=
  match op.kind with
  | .activity record => some record
  | _ => do
    let record ← view op
    return { record with
      id := upgradeId op.id
      parents := record.parents.map upgradeId
      legacy := some (legacyMapping op)
      original := record.original.map fun original =>
        { original with operation := upgradeId original.operation }
      kind := upgradeKind record.kind }

end Operation

omit [KeyDerivation] [AddressHash]

/-- `map_operation_ids` on an endpoint of a link. -/
def Entity.mapOperationId (f : OpId → OpId) : Entity → Entity
  | .operation id => .operation (f id)
  | entity => entity

/-- `map_operation_ids` on the kind of a record. -/
def Kind.mapOperationIds (f : OpId → OpId) : Kind → Kind
  | .session value => .session { value with initiatedBy := value.initiatedBy.map f }
  | .turn value => .turn { value with triggers := value.triggers.map f }
  | .message value => .message { value with
      blocks := value.blocks.map fun block => { block with previous := block.previous.map f }
      coverage := value.coverage.map fun coverage =>
        { coverage with operations := coverage.operations.map f } }
  | .tool value => .tool { value with
      output := value.output.map fun output => { output with previous := output.previous.map f } }
  | .commit importedRecord value => .commit (importedRecord.map f) value
  | .note value => .note { value with targets := value.targets.map f }
  | .link value => .link { value with
      source := value.source.mapOperationId f
      targets := value.targets.map fun entity => entity.mapOperationId f }
  | kind => kind

/-- Remap physical references during an explicit conversion. Logical item IDs and old-address
aliases remain unchanged. -/
def Operation.mapOperationIds (f : OpId → OpId) (record : Operation) : Operation :=
  { record with
    id := f record.id
    parents := record.parents.map f
    original := record.original.map fun original =>
      { original with operation := f original.operation }
    kind := record.kind.mapOperationIds f }

end EditChain.Activity
