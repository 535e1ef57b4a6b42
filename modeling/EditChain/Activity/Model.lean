import EditChain.Migration.Record

/-!
# The operation schema

The payloads of every kind of operation: the kinds of the first two schemas, and the ten kinds of
schema three with their own envelope. `validate` checks one record of schema three without looking
at any other record. `payloads` gives these types to the operation codec.
-/

namespace EditChain.Activity

open Migration (SourceId ParentSet AddressHash Payloads)

/-! ## Shared parts -/

/-- Identity of immutable content. -/
inductive ContentId where
  | ofLocal (node : UInt64) (seq : UInt64)
  | hash128 (hash : BitVec 128)
  | hash256 (hash : Digest)
deriving DecidableEq, Repr

/-- A reference to a blob. -/
structure BlobRef where
  id : ContentId
  len : UInt32
deriving DecidableEq, Repr

/-- Content of a field: nothing, its bytes, or a reference to them. -/
inductive Payload where
  | empty
  | inline (bytes : Bytes)
  | blob (reference : BlobRef)
deriving DecidableEq, Repr

inductive Clock where
  | none
  | lamport (value : UInt64)
  | unixMs (ms : UInt64)
  | hybrid (ms : UInt64) (ctr : UInt16)
deriving DecidableEq, Repr

inductive ScopeRef where
  | none
  | chain (id : UInt64)
  | session (id : UInt64)
  | turn (id : UInt64)
  | file (path : UInt64)
deriving DecidableEq, Repr

/-- Actor, clock, scope and tags of an envelope. -/
structure Context where
  actor : UInt64
  clock : Clock
  scope : ScopeRef
  tags : UInt64
deriving DecidableEq, Repr

structure ByteRange where
  start : UInt64
  stop : UInt64
deriving DecidableEq, Repr

/-- The edit applied to a file. -/
inductive FileEdit where
  | none
  | replaceBytes (range : ByteRange) (bytes : Payload)
  | unifiedDiff (diff : Payload)
  | blob (reference : BlobRef)
deriving DecidableEq, Repr

/-- The highest known sequence from a node and boot. -/
structure Frontier where
  node : UInt64
  boot : UInt32
  maxSeq : UInt64
deriving DecidableEq, Repr

structure WindowRef where
  startSeq : UInt64
  endSeq : UInt64
deriving DecidableEq, Repr

/-! ## Git -/

inductive GitObjectFormat where
  | sha1
  | sha256
deriving DecidableEq, Repr

/-- A full object ID; a SHA-1 is padded with zeros. -/
structure GitOid where
  format : GitObjectFormat
  bytes : BitVec 256
  padded : format = .sha1 → bytes.extractLsb' 0 96 = 0
deriving DecidableEq, Repr

structure GitSignature where
  name : Payload
  email : Payload
  timestamp : Int64
deriving DecidableEq, Repr

inductive GitAvailability where
  | resolved
  | importedOnly
  | liveOnly
  | missingFromObjectDatabase
deriving DecidableEq, Repr

/-- A Git commit without the record it was imported from. -/
structure GitCommit where
  repository : UInt64
  objectFormat : GitObjectFormat
  oid : GitOid
  availability : GitAvailability
  tree : GitOid
  parents : List GitOid
  author : GitSignature
  committer : GitSignature
  authoredAt : Int64
  committedAt : Int64
  message : Payload
  importedRefs : List Payload
  liveRefs : List Payload
  changedPaths : List UInt64
deriving DecidableEq, Repr

inductive GitLinkKind where
  | basedOn
  | checkpoint
  | committedAs
  | producedBy
  | mentions
  | custom (payload : Payload)
deriving DecidableEq, Repr

/-- A link to a Git object without its source. -/
structure GitLink where
  targetRepo : UInt64
  targetOid : GitOid
  kind : GitLinkKind
deriving DecidableEq, Repr

/-! ## Kinds of the first two schemas -/

inductive ToolStage where
  | start
  | delta
  | finish
deriving DecidableEq, Repr

inductive CommandStage where
  | start
  | output
  | finish
deriving DecidableEq, Repr

inductive FileStage where
  | observed
  | proposed
  | applied
  | saved
  | deleted
deriving DecidableEq, Repr

structure FileOp where
  path : UInt64
  stage : FileStage
  base : Option ContentId
  after : Option ContentId
  edit : FileEdit
deriving DecidableEq, Repr

inductive NoteRelationship where
  | corrects
  | supersedes
  | rejects
  | redacts
  | explains
  | forkOf
  | subagentOf
  | reconnectsTo
  | occurrenceOf
  | providerParent
  | logicalParent
  | forkedFrom
  | spawnedBy
  | contains
  | toolResultOf
  | providerEvidence
deriving DecidableEq, Repr

/-- A note without its targets. -/
structure NoteOp where
  relationship : NoteRelationship
  content : Payload
deriving DecidableEq, Repr

/-- The kinds that refer to no other operation. -/
inductive PlainKind where
  | chainStart (name : Bytes) (version : UInt16)
  | actor (label role : Payload)
  | message (content contentType : Payload)
  | tool (toolCallId toolName : Payload) (stage : ToolStage) (content : Payload)
  | command (commandId content : Payload) (stage : CommandStage)
  | file (file : FileOp)
  | reflection (scope : ScopeRef) (covers : List Frontier) (window : WindowRef)
      (summary anchors : Payload)
  | ofImport (rawRef : Payload) (rawHash : Option (BitVec 256))
  | error (code message : Payload)
  | unknown (kindDiscriminant : UInt8) (rawBytes : Payload)
  | session (id : UInt64) (parent : Option UInt64) (label metadata : Payload)
deriving DecidableEq, Repr

/-! ## Schema three -/

/-- A full logical identity, separate from an immutable operation ID. -/
structure ItemId where
  id : OpId
deriving DecidableEq, Repr

/-- A direct reference to captured input and the converter that interpreted it. -/
structure OriginalRef where
  operation : OpId
  converter : String
deriving DecidableEq, Repr

/-- Old-address mapping retained on a physically converted operation. -/
structure LegacyMapping where
  operation : OpId
  folded : List OpId
  source : Option SourceId
  actor : UInt64
  clock : Clock
  scope : ScopeRef
  tags : UInt64
deriving DecidableEq, Repr

inductive Status where
  | success
  | failure
  | cancelled
  | unknown
deriving DecidableEq, Repr

/-- Completion is separate from success. -/
structure Completion where
  status : Status
  detail : Payload
deriving DecidableEq, Repr

inductive SessionAction where
  | started
  | changed
  | ended
  | snapshot
deriving DecidableEq, Repr

structure Session where
  action : SessionAction
  label : Payload
  settings : Payload
  participants : List ItemId
  parent : Option ItemId
  initiatedBy : Option OpId
deriving DecidableEq, Repr

inductive TurnAction where
  | queued
  | started
  | waiting
  | resumed
  | finished
  | snapshot
  | removed
deriving DecidableEq, Repr

structure Turn where
  action : TurnAction
  triggers : List OpId
  attempt : ItemId
  outcome : Option Completion
deriving DecidableEq, Repr

/-- Streaming lifecycle shared by messages and calls. -/
inductive Stage where
  | started
  | updated
  | finished
  | snapshot
deriving DecidableEq, Repr

/-- How an update changes a logical content block. -/
inductive UpdateMode where
  | append
  | replace
deriving DecidableEq, Repr

/-- One content update; a predecessor disambiguates reordered delivery. -/
structure ContentUpdate where
  block : ItemId
  position : Option UInt32
  mode : UpdateMode
  previous : Option OpId
  mediaType : Payload
  content : Payload
deriving DecidableEq, Repr

inductive MessageKind where
  | text
  | reasoning
  | plan
  | summary
deriving DecidableEq, Repr

structure Coverage where
  operations : List OpId
  frontiers : List Frontier
  window : Option WindowRef
  anchors : Payload
deriving DecidableEq, Repr

structure Message where
  category : MessageKind
  stage : Stage
  audience : List ItemId
  blocks : List ContentUpdate
  coverage : Option Coverage
  outcome : Option Completion
deriving DecidableEq, Repr

inductive OutputChannel where
  | result
  | stdout
  | stderr
  | combined
deriving DecidableEq, Repr

structure Terminal where
  command : Payload
  cwd : Payload
  exitCode : Option Int32
deriving DecidableEq, Repr

structure Tool where
  nativeCall : Payload
  name : Payload
  stage : Stage
  attempt : ItemId
  parentCall : Option ItemId
  arguments : Payload
  channel : OutputChannel
  output : Option ContentUpdate
  terminal : Option Terminal
  outcome : Option Completion
deriving DecidableEq, Repr

inductive FileAction where
  | open
  | close
  | view
  | read
  | create
  | change
  | save
  | rename
  | delete
  | snapshot
deriving DecidableEq, Repr

inductive ChangeState where
  | proposed
  | applied
deriving DecidableEq, Repr

structure TextEdit where
  offsetUtf16 : UInt64
  lengthUtf16 : UInt64
  text : Payload
deriving DecidableEq, Repr

/-- A range in lines and UTF-16 columns. -/
structure TextRange where
  start : UInt32 × UInt32
  stop : UInt32 × UInt32
deriving DecidableEq, Repr

structure File where
  action : FileAction
  path : UInt64
  name : Payload
  renamedTo : Option Payload
  revision : Option ItemId
  before : Option ContentId
  after : Option ContentId
  edit : FileEdit
  textEdits : List TextEdit
  change : Option ChangeState
  causedBy : Option ItemId
  ranges : List ByteRange
  textRanges : List TextRange
  durationMs : Option UInt64
deriving DecidableEq, Repr

inductive NoteKind where
  | comment
  | label
  | correction
  | error
  | gap
deriving DecidableEq, Repr

structure Note where
  category : NoteKind
  targets : List OpId
  items : List ItemId
  version : UInt32
  content : Payload
  code : Payload
deriving DecidableEq, Repr

inductive AuthorRole where
  | person
  | agent
  | tool
  | system
  | unknown
deriving DecidableEq, Repr

structure Author where
  label : Payload
  role : AuthorRole
  nativeRole : Payload
  metadata : Payload
deriving DecidableEq, Repr

inductive Entity where
  | operation (id : OpId)
  | item (id : ItemId)
  | git (repository : UInt64) (oid : GitOid)
deriving DecidableEq, Repr

structure Link where
  source : Entity
  relation : String
  targets : List Entity
  content : Payload
deriving DecidableEq, Repr

structure NativeId where
  kind : String
  value : String
deriving DecidableEq, Repr

structure Location where
  path : String
  record : Option UInt64
  offset : Option UInt64
deriving DecidableEq, Repr

structure Original where
  provider : String
  format : Option String
  native : List NativeId
  location : Option Location
  bytes : Payload
  hash : Option (BitVec 256)
deriving DecidableEq, Repr

/-- The ten kinds of schema three. -/
inductive Kind where
  | session (session : Session)
  | turn (turn : Turn)
  | message (message : Message)
  | tool (tool : Tool)
  | file (file : File)
  | commit (importedRecord : Option OpId) (commit : GitCommit)
  | note (note : Note)
  | author (author : Author)
  | link (link : Link)
  | original (original : Original)
deriving DecidableEq, Repr

/-- Immutable schema-three envelope. -/
structure Operation where
  id : OpId
  item : ItemId
  author : Option ItemId
  recorder : ItemId
  session : Option ItemId
  turn : Option ItemId
  timeMs : Option UInt64
  sequence : Option UInt64
  parents : List OpId
  causes : List ItemId
  original : Option OriginalRef
  legacy : Option LegacyMapping
  kind : Kind
deriving DecidableEq, Repr

/-! ## Validation -/

/-- Invalid schema-three fields; storage refuses the entire record. -/
structure ValidationError where
  text : String
deriving DecidableEq, Repr

/-- `require`. -/
def require (valid : Bool) (message : String) : Except ValidationError Unit :=
  if valid then .ok () else .error ⟨message⟩

/-- `[u32; 2]` in its lexicographic order. -/
def textLe (a b : UInt32 × UInt32) : Bool := a.1 < b.1 ∨ (a.1 = b.1 ∧ a.2 ≤ b.2)

namespace Operation

/-- `validate_block`. -/
def validateBlock (operation : Operation) (block : ContentUpdate) :
    Except ValidationError Unit :=
  require (block.previous ≠ some operation.id) "content cannot reference itself as its predecessor"

/-- The blocks of a message, where `blocks` were seen before. -/
def validateBlocks (operation : Operation) :
    List ItemId → List ContentUpdate → Except ValidationError Unit
  | _, [] => .ok ()
  | blocks, block :: rest => do
    require (block.block ∉ blocks) "duplicate message block in one event"
    operation.validateBlock block
    operation.validateBlocks (block.block :: blocks) rest

variable [AddressHash]

/-- The old address of a converted record. -/
def validateLegacy (operation : Operation) : Except ValidationError Unit :=
  match operation.legacy with
  | none => .ok ()
  | some legacy => do
    require (legacy.operation ≠ operation.id) "converted bytes require a new operation ID"
    require (legacy.source.all fun source => decide (source.id = legacy.operation))
      "legacy tuple does not match the old ID"

/-- The fields of a kind. -/
def validateKind (operation : Operation) : Except ValidationError Unit :=
  match operation.kind with
  | .turn turn => do
    require operation.session.isSome "turn requires a session"
    require (operation.turn = some operation.item)
      "turn envelope must identify the same logical turn"
    require (decide (turn.action = .finished) = turn.outcome.isSome)
      "only finished turns carry completion outcomes"
  | .message message => do
    require (message.outcome.isNone ∨ message.stage = .finished)
      "message outcome requires finished stage"
    operation.validateBlocks [] message.blocks
  | .tool tool => do
    require (decide (tool.stage = .finished) = tool.outcome.isSome)
      "finished tool requires an explicit outcome"
    require (tool.parentCall ≠ some operation.item) "tool cannot be its own parent call"
    match tool.output with
    | some block => operation.validateBlock block
    | none => pure ()
    require (tool.terminal.all fun terminal =>
      terminal.exitCode.isNone || decide (tool.stage = .finished))
      "exit code requires a finished tool"
  | .file file => do
    require (file.ranges.all fun range => decide (range.start ≤ range.stop)) "reversed byte range"
    require (file.textRanges.all fun range => textLe range.start range.stop)
      "reversed UTF-16 range"
    match file.edit with
    | .replaceBytes range _ =>
      require (range.start ≤ range.stop) "reversed replacement range"
    | _ => pure ()
    require (file.action ≠ .rename ∨ file.renamedTo.isSome) "rename requires a destination"
    require (file.change.isNone ∨ file.action ∈ [.create, .change, .rename, .delete])
      "proposed/applied state belongs to a file modification"
  | .note note => require (0 < note.version) "note content version must be positive"
  | .original original =>
    require (original.provider ≠ "") "original provider must be explicit or unknown"
  | .link link => require (link.relation ≠ "") "link relation cannot be empty"
  | .session _ | .commit _ _ | .author _ => .ok ()

/-- Validate one immutable record, without requiring all referenced events. -/
def validate (operation : Operation) : Except ValidationError Unit := do
  require (operation.id ∉ operation.parents) "operation cannot parent itself"
  require operation.parents.Nodup "duplicate causal parent"
  require (operation.original.all fun original =>
    decide (original.operation ≠ operation.id ∧ original.converter ≠ ""))
    "invalid original reference"
  operation.validateLegacy
  operation.validateKind

/-! ## Envelopes -/

/-- Actor, clock, scope and tags of the envelope: those of the converted record, or else the
defaults and the recorded time. -/
def context (operation : Operation) : Context where
  actor := operation.legacy.elim 0 (·.actor)
  clock := operation.legacy.elim (operation.timeMs.elim .none .unixMs) (·.clock)
  scope := operation.legacy.elim .none (·.scope)
  tags := operation.legacy.elim 0 (·.tags)

end Operation

/-- The payloads of the program. -/
@[reducible] def payloads [AddressHash] : Payloads where
  Plain := PlainKind
  Note := NoteOp
  Link := GitLink
  Commit := GitCommit
  Context := Context
  Activity := Operation
  validate operation := operation.validate.isOk
  activityId := Operation.id
  activityParents := Operation.parents
  activityContext := Operation.context

end EditChain.Activity
