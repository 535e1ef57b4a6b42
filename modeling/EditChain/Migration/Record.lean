import EditChain.Core.Basic

/-!
# Operation records and their migration

An operation is stored in one of four spellings: unversioned, in the frozen legacy envelope, or
behind a magic and a schema byte. `migrate_record` rewrites the unversioned spelling to a versioned
one. The serialization library is a parameter, and so are the payloads that no function here looks
into.
-/

namespace EditChain.Migration


/-! ## Operations -/

/-- An EC02 address. -/
structure SourceId where
  node : UInt64
  boot : UInt32
  seq : UInt64
deriving DecidableEq, Repr

/-- BLAKE3 in its key derivation mode, on addresses. -/
class AddressHash where
  id : SourceId → OpId

/-- `SourceId::id`. -/
def SourceId.id [AddressHash] (source : SourceId) : OpId := AddressHash.id source

/-- The parts of an operation that are only carried along, and the direct activity record with what
the envelope is checked against. -/
structure Payloads where
  /-- The payload of a kind without references. -/
  Plain : Type
  /-- A note without its targets. -/
  Note : Type
  /-- A link to a Git object without its source. -/
  Link : Type
  /-- A Git commit without the record it was imported from. -/
  Commit : Type
  /-- Actor, clock, scope and tags. -/
  Context : Type
  Activity : Type
  [contextEq : DecidableEq Context]
  /-- `activity::Operation::validate`. -/
  validate : Activity → Bool
  activityId : Activity → OpId
  activityParents : Activity → List OpId
  activityContext : Activity → Context

attribute [instance] Payloads.contextEq

variable {P : Payloads}

inductive ParentSet (Id : Type) where
  | none
  | one (first : Id)
  | two (first second : Id)
deriving DecidableEq, Repr

/-- `ParentSet::iter`. -/
def ParentSet.toList {Id : Type} : ParentSet Id → List Id
  | .none => []
  | .one first => [first]
  | .two first second => [first, second]

def ParentSet.map {Id Id' : Type} (f : Id → Id') : ParentSet Id → ParentSet Id'
  | .none => .none
  | .one first => .one (f first)
  | .two first second => .two (f first) (f second)

/-- The payload of an operation; the kinds without references to other operations are one case. -/
inductive OpKind (P : Payloads) (Id : Type) where
  | plain (payload : P.Plain)
  | note (targetIds : List Id) (rest : P.Note)
  | gitLink (source : Id) (rest : P.Link)
  | gitCommit (importedRecord : Option Id) (rest : P.Commit)
  | activity (record : P.Activity)

namespace OpKind

/-- `matches!(kind, OpKind::Activity(_))`. -/
def isActivity {Id : Type} : OpKind P Id → Bool
  | .activity _ => true
  | _ => false

/-- `map_kind`. -/
def map {Id Id' : Type} (f : Id → Id') : OpKind P Id → OpKind P Id'
  | .plain payload => .plain payload
  | .note targetIds rest => .note (targetIds.map f) rest
  | .gitLink source rest => .gitLink (f source) rest
  | .gitCommit importedRecord rest => .gitCommit (importedRecord.map f) rest
  | .activity record => .activity record

end OpKind

structure Op (P : Payloads) where
  id : OpId
  source : Option SourceId
  parents : ParentSet OpId
  context : P.Context
  kind : OpKind P OpId

/-- `Op::parent_ids`. -/
def Op.parentIds (op : Op P) : List OpId :=
  match op.kind with
  | .activity record => P.activityParents record
  | _ => op.parents.toList

/-- EC02's unversioned envelope. -/
structure LegacyOp (P : Payloads) where
  id : SourceId
  parents : ParentSet SourceId
  context : P.Context
  kind : OpKind P SourceId

section Ids

variable [AddressHash]

/-- `into_canonical`. -/
def LegacyOp.intoCanonical (legacy : LegacyOp P) : Op P where
  id := legacy.id.id
  source := some legacy.id
  parents := legacy.parents.map SourceId.id
  context := legacy.context
  kind := legacy.kind.map SourceId.id

/-- `op.source.is_some_and(|source| source.id() != op.id)`. -/
def Op.misplaced (op : Op P) : Bool := op.source.any fun source => decide (source.id ≠ op.id)

end Ids

/-- `into_op`. -/
def intoOp (record : P.Activity) : Option (Op P) :=
  if P.validate record then
    some {
      id := P.activityId record
      source := none
      parents := match P.activityParents record with
        | [] => .none
        | [first] => .one first
        | first :: second :: _ => .two first second
      context := P.activityContext record
      kind := .activity record }
  else none

/-- `matches_envelope`. -/
def matchesEnvelope (record : P.Activity) (op : Op P) : Bool :=
  op.id = P.activityId record ∧ op.source.isNone ∧ op.context = P.activityContext record
    ∧ op.parents.toList = (P.activityParents record).take 2

/-! ## Spellings -/

/-- `postcard::Error::DeserializeBadEncoding`. -/
def badEncoding : PostcardError := ⟨"The original data was not well encoded"⟩

/-- `postcard::Error::SerdeSerCustom`. -/
def serdeSerCustom : PostcardError := ⟨"Serde Serialization Error"⟩

/-- `take_from_bytes` and `to_stdvec` on the three envelopes. -/
class Postcard (P : outParam Payloads) where
  takeOp : Bytes → Except PostcardError (Op P × Bytes)
  takeLegacy : Bytes → Except PostcardError (LegacyOp P × Bytes)
  takeActivity : Bytes → Except PostcardError (P.Activity × Bytes)
  opBytes : Op P → Except PostcardError Bytes
  legacyBytes : LegacyOp P → Except PostcardError Bytes
  activityBytes : P.Activity → Except PostcardError Bytes

/-- `strip_prefix(RECORD_MAGIC)`. -/
def stripMagic (bytes : Bytes) : Option Bytes :=
  if recordMagic <+: bytes then some (bytes.drop recordMagic.length) else none

def recordSchema : UInt8 := 1

variable [AddressHash] [Postcard P]

/-- The legacy envelope at the front of some bytes. -/
def takeCanonical (bytes : Bytes) : Except PostcardError (Op P × Bytes) := do
  let (legacy, remaining) ← Postcard.takeLegacy bytes
  if legacy.kind.isActivity then throw badEncoding
  return (legacy.intoCanonical, remaining)

/-- The envelope of a schema at the front of some bytes. -/
def takeSchema (schema : UInt8) (body : Bytes) : Except PostcardError (Op P × Bytes) :=
  if schema = recordSchema then do
    let (op, remaining) ← Postcard.takeOp body
    if op.kind.isActivity then throw badEncoding
    return (op, remaining)
  else if schema = 3 then do
    let (record, remaining) ← Postcard.takeActivity body
    match intoOp record with
    | some op => return (op, remaining)
    | none => throw badEncoding
  else if schema = 2 then takeCanonical body
  else .error badEncoding

/-- The envelope at the front of a record. -/
def takeEnvelope (bytes : Bytes) : Except PostcardError (Op P × Bytes) :=
  match stripMagic bytes with
  | some (schema :: body) => takeSchema schema body
  | some [] => .error badEncoding
  | none => takeCanonical bytes

/-- `decode_op`. -/
def decodeOp (bytes : Bytes) : Except PostcardError (Op P) := do
  let (op, remaining) ← takeEnvelope bytes
  if remaining ≠ [] then throw badEncoding
  if op.misplaced then throw badEncoding
  return op

/-- `encode_op`. -/
def encodeOp (op : Op P) : Except PostcardError Bytes := do
  if op.misplaced then throw serdeSerCustom
  match op.kind with
  | .activity record =>
    if !P.validate record then throw serdeSerCustom
    if !matchesEnvelope record op then throw serdeSerCustom
    let body ← Postcard.activityBytes record
    return recordMagic ++ 3 :: body
  | _ =>
    let body ← Postcard.opBytes op
    return recordMagic ++ recordSchema :: body

/-- `migrate_record`. -/
def migrateRecord (bytes : Bytes) : Except PostcardError Bytes :=
  if recordMagic <+: bytes then .ok bytes
  else
    match (Postcard.takeLegacy bytes : Except PostcardError (LegacyOp P × Bytes)) with
    | .error _ => .ok bytes
    | .ok (legacy, remaining) =>
      if remaining ≠ [] then .ok bytes
      else do
        let canonical ← Postcard.legacyBytes legacy
        if canonical = bytes then encodeOp legacy.intoCanonical
        else return recordMagic ++ 2 :: bytes

/-- `decode_op` as the schema of the store. -/
instance wireSchema : Schema (Op P) where
  decodeOp := decodeOp
  id := Op.id
  parentIds := Op.parentIds

end EditChain.Migration
