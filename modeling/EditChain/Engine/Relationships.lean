import EditChain.Activity.Model
import EditChain.Engine.History

/-!
# Relationships and ancestors

Relationships are read off the fields of a record, without inferred topology. The ancestors of an
operation are found by following the parents of accepted operations, the pending identity that comes
first in their order at a time, up to a budget of inspected identities; what was found but not
inspected is the frontier.
-/

namespace EditChain.Engine

open Activity
open Migration (AddressHash OpKind)

/-- A recorded operation, session, or repository-qualified Git object identity. -/
inductive EntityRef where
  /-- Schema-three logical identity. -/
  | item (id : ItemId)
  /-- Operation identity; the target can be missing or quarantined. -/
  | operation (id : OpId)
  | session (id : UInt64)
  | git (repository : UInt64) (oid : GitOid)
deriving DecidableEq

/-- Exact asserted relationship kind. -/
inductive RelationshipKind where
  /-- Named direct schema-three field or explicit link relation. -/
  | recorded (name : String)
  /-- The source operation's envelope names the target causal parent. -/
  | causalParent
  /-- An annotation names a target; the source is the note itself. -/
  | annotation (relationship : NoteRelationship)
  | sessionParent
  | gitParent
  | gitImportedRecord
  | gitLink (kind : GitLinkKind)
deriving DecidableEq

/-- One asserted relationship with the exact record that supports it. -/
structure RecordedRelationship (Ref : Type) where
  source : EntityRef
  target : EntityRef
  kind : RelationshipKind
  recordRef : RecordRef
  content : List (Ref × Index.ContentState)

/-- `entity` of `modern_relationships`. -/
def entity : Entity → EntityRef
  | .operation id => .operation id
  | .item id => .item id
  | .git repository oid => .git repository oid

/-- The named fields of a kind of schema three. -/
def kindFields (record : Activity.Operation) :
    Activity.Kind → List (EntityRef × EntityRef × String)
  | .session session =>
    session.parent.toList.map (fun parent => (.item record.item, .item parent, "parent_session"))
    ++ session.initiatedBy.toList.map fun cause =>
      (.item record.item, .operation cause, "initiated_by")
  | .turn turn =>
    turn.triggers.map fun trigger => (.operation record.id, .operation trigger, "trigger")
  | .message message =>
    (message.coverage.elim [] Coverage.operations).map fun covered =>
      (.operation record.id, .operation covered, "summarizes")
  | .tool tool =>
    tool.parentCall.toList.map fun parent => (.item record.item, .item parent, "parent_call")
  | .file file =>
    file.causedBy.toList.map fun cause => (.operation record.id, .item cause, "caused_by")
  | .note note =>
    note.items.map (fun item => (.operation record.id, .item item, "annotates"))
    ++ note.targets.map fun target => (.operation record.id, .operation target, "annotates")
  | .link link =>
    link.targets.map fun target => (entity link.source, entity target, link.relation)
  | .commit importedRecord commit =>
    commit.parents.map (fun parent =>
      (.git commit.repository commit.oid, .git commit.repository parent, "git_parent"))
    ++ importedRecord.toList.map fun original =>
      (.git commit.repository commit.oid, .operation original, "original")
  | .author _ | .original _ => []

/-- `modern_relationships`. -/
def modernRelationships (record : Activity.Operation) : List (EntityRef × EntityRef × String) :=
  record.session.toList.map (fun session => (.operation record.id, .item session, "session"))
  ++ record.turn.toList.map (fun turn => (.operation record.id, .item turn, "turn"))
  ++ record.causes.map (fun cause => (.operation record.id, .item cause, "cause"))
  ++ record.original.toList.map (fun original =>
    (.operation record.id, .operation original.operation, "original"))
  ++ kindFields record record.kind

section Records

variable [AddressHash] {Ref : Type}

/-- The relationships of `recorded_relationships` that come from the kind of an operation. -/
def kindRelationships (id : OpId) :
    OpKind payloads OpId → List (EntityRef × EntityRef × RelationshipKind)
  | .activity record =>
    (modernRelationships record).map fun (source, target, name) => (source, target, .recorded name)
  | .note targetIds note =>
    targetIds.map fun target =>
      (.operation id, .operation target, RelationshipKind.annotation note.relationship)
  | .plain (.session session parent _ _) =>
    parent.toList.map fun parent => (.session session, .session parent, .sessionParent)
  | .gitCommit importedRecord commit =>
    commit.parents.map (fun parent =>
      (.git commit.repository commit.oid, .git commit.repository parent, .gitParent))
    ++ importedRecord.toList.map fun imported =>
      (.git commit.repository commit.oid, .operation imported, .gitImportedRecord)
  | .gitLink source link =>
    [(.operation source, .git link.targetRepo link.targetOid, .gitLink link.kind)]
  | .plain _ => []

/-- `recorded_relationships`. -/
def recordedRelationships (entry : HistoryEntry (Migration.Op payloads) Ref) :
    List (RecordedRelationship Ref) :=
  let operation := entry.operation
  let parents := operation.parentIds.map fun parent =>
    (EntityRef.operation operation.id, EntityRef.operation parent, RelationshipKind.causalParent)
  (parents ++ kindRelationships operation.id operation.kind).map fun (source, target, kind) =>
    ⟨source, target, kind, entry.recordRef, entry.content⟩

/-- A referenced operation and its explicit lookup outcome. -/
structure OperationLookup (Ref : Type) where
  operation : OpId
  record : Lookup (HistoryEntry (Migration.Op payloads) Ref)

/-- The relationships of a lookup that found an accepted operation. -/
def OperationLookup.relationships (lookup : OperationLookup Ref) :
    List (RecordedRelationship Ref) :=
  match lookup.record with
  | .found entry => recordedRelationships entry
  | .missing | .conflicted _ => []

/-- A bounded walk of envelope parent references only. -/
structure AncestorGraph (Ref : Type) where
  /-- Requested root, included in the inspected operations. -/
  root : OpId
  /-- Inspected identities in their order, including explicit missing ones and conflicts. -/
  operations : List (OperationLookup Ref)
  /-- Parent assertions in child and recorded-parent order. -/
  relationships : List (RecordedRelationship Ref)
  /-- Discovered identities not inspected because of the budget. -/
  frontier : List OpId

end Records
end EditChain.Engine

namespace EditChain.Index.ChainQueries

open Core Fallible Store
open Activity (payloads)
open Engine (AncestorGraph Lookup OperationLookup PageRequest RelationshipKind)
open Migration (AddressHash)
open Std (ExtTreeMap ExtTreeSet TransOrd)

variable {Ref Key : Type} [AddressHash] [Checksum] [Blake3] [Ord Ref] [TransOrd Ref]
  [IndexSchema (Migration.Op payloads) Ref Key]
  (queries : ChainQueries (Migration.Op payloads) Ref Key) (d : Directory)

/-- The parents that a lookup adds to what is pending: not the operation itself, and none that was
visited. -/
def pendParents (id : OpId) (visited : ExtTreeMap OpId (OperationLookup Ref)) (parents : List OpId)
    (pending : ExtTreeSet OpId) : ExtTreeSet OpId :=
  parents.foldl (fun pending parent =>
    if parent ≠ id ∧ parent ∉ visited then pending.insert parent else pending) pending

/-- The causal parents of a lookup. -/
def lookupParents : Lookup (Engine.HistoryEntry (Migration.Op payloads) Ref) → List OpId
  | .found entry => entry.operation.parentIds
  | .missing | .conflicted _ => []

/-- The loop of `ancestors`. -/
def ancestorsLoop (limit : ℕ) : ℕ → ExtTreeSet OpId → ExtTreeMap OpId (OperationLookup Ref) →
    Except IoError (ExtTreeSet OpId × ExtTreeMap OpId (OperationLookup Ref))
  | 0, pending, visited => .ok (pending, visited)
  | fuel + 1, pending, visited =>
    if visited.size < limit then
      -- `pop_first`
      match pending.toList.head? with
      | none => .ok (pending, visited)
      | some id => do
        let record ← queries.operation d id
        ancestorsLoop limit fuel (pendParents id visited (lookupParents record) (pending.erase id))
          (visited.insert id ⟨id, record⟩)
    else .ok (pending, visited)

/-- `ancestors`. An identity is visited in every round, so that as many rounds as the budget allows
identities are enough (`ancestors_complete`). -/
def ancestors (root : OpId) (limit : ℕ) : Except IoError (AncestorGraph Ref) := do
  let _ ← PageRequest.validate ⟨none, limit⟩
  let (pending, visited) ← queries.ancestorsLoop d limit limit (extend ∅ [root]) ∅
  let operations := visited.toList.map Prod.snd
  return ⟨root, operations,
    (operations.flatMap OperationLookup.relationships).filter fun relation =>
      decide (relation.kind = RelationshipKind.causalParent), pending.toList⟩

end EditChain.Index.ChainQueries
