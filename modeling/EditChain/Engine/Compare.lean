import EditChain.Engine.Diff
import EditChain.Engine.Queries

/-!
# Comparison of recorded content

Any two recorded fields can be compared, and a file revision has its snapshots, its recorded edit
and the comparison of its snapshots. Missing operations and missing bytes are kept as such.
-/

namespace EditChain.Activity

/-- Only verified, available bytes. -/
def ContentValue.bytes : ContentValue → Option Bytes
  | .available bytes => some bytes
  | .notRecorded | .missing | .corrupt | .unresolvable => none

end EditChain.Activity

namespace EditChain.Engine

open Activity (ContentField ContentReference ContentResult payloads)
open Migration (AddressHash OpKind)

/-- Select exact field bytes from a recorded operation. -/
structure ContentQuery where
  operation : OpId
  field : ContentField
deriving DecidableEq

/-- Compare any two recorded fields, retaining missing or conflicted operation status. -/
structure ContentDiff where
  beforeQuery : ContentQuery
  afterQuery : ContentQuery
  before : Lookup (ContentResult RecordRef)
  after : Lookup (ContentResult RecordRef)
  /-- Computed only when both sides are completely available. -/
  comparison : ByteComparison

/-- One file revision's recorded snapshots, edit, and exact comparison. -/
structure RevisionDiff [AddressHash] where
  record : HistoryEntry (Migration.Op payloads) ContentReference
  before : ContentResult RecordRef
  after : ContentResult RecordRef
  /-- Recorded patch, replacement or full blob. -/
  edit : ContentResult RecordRef
  comparison : ByteComparison

/-- `matches!(kind, OpKind::File(_))`, or a record of schema three about a file. -/
def isFile [AddressHash] : OpKind payloads OpId → Bool
  | .plain (.file _) => true
  | .activity record =>
    match record.kind with
    | .file _ => true
    | _ => false
  | _ => false

/-- The comparison of two sides. -/
def compareSides : Lookup (ContentResult RecordRef) → Lookup (ContentResult RecordRef) →
    Except IoError ByteComparison
  | .found before, .found after =>
    compareBytes before.value.bytes after.value.bytes
  | _, _ => .ok .unavailable

end EditChain.Engine

namespace EditChain.Index.ChainQueries

open Activity (ContentField ContentReference ContentResult payloads)
open Core Fallible Store
open Engine
open Migration (AddressHash)

variable [AddressHash] [Checksum] [Blake3]

local instance comparedSchema : IndexSchema (Migration.Op payloads) ContentReference IndexKey :=
  recordedSchema

variable (queries : ChainQueries (Migration.Op payloads) ContentReference IndexKey) (d : Directory)
  (resolve : ContentReference → Except IoError Activity.BlobResolution)

/-- Compare two exact recorded fields, including binary contents and empty files. -/
protected def compare (beforeQuery afterQuery : ContentQuery) : Except IoError ContentDiff := do
  let before ← queries.content d resolve beforeQuery.operation beforeQuery.field
  let after ← queries.content d resolve afterQuery.operation afterQuery.field
  let comparison ← compareSides before after
  return ⟨beforeQuery, afterQuery, before, after, comparison⟩

/-- The body of `diff` for a found operation. -/
def diffOf (record : HistoryEntry (Migration.Op payloads) ContentReference) :
    Except IoError RevisionDiff := do
  if ¬ isFile record.operation.kind then
    throw ⟨.invalidInput, "diff requires a recorded file revision"⟩
  let before ← Activity.fieldContent resolve record.evidence .fileBase
  let after ← Activity.fieldContent resolve record.evidence .fileAfter
  let edit ← Activity.fieldContent resolve record.evidence .fileEdit
  let comparison ← compareBytes before.value.bytes after.value.bytes
  return ⟨record, before, after, edit, comparison⟩

/-- Query one recorded file revision without deriving snapshots from partial edits. -/
def diff (revision : OpId) : Except IoError (Lookup RevisionDiff) := do
  (← queries.operation d revision).tryMap (diffOf resolve)

end EditChain.Index.ChainQueries
