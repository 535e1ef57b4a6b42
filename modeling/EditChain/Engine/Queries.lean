import EditChain.Engine.Relationships
import EditChain.Index.Keys
import EditChain.Lib.Occurrence

/-!
# Queries over recorded operations

The queries of an evidence reader: the exact content of a field, a literal search, recorded
relationships, Git observations and the metadata of an operation. Each goes through the pages of the
history. The blob store is given by its answers to references.
-/

namespace EditChain.Engine

open Activity (ContentField ContentReference ContentResult ContentStatus ContentValue FieldSource
  GitOid payloads)
open Migration (AddressHash OpKind)

/-- `try_map`: only a found record is looked at further. -/
def Lookup.tryMap {α β : Type} (f : α → Except IoError β) : Lookup α → Except IoError (Lookup β)
  | .missing => .ok .missing
  | .conflicted variants => .ok (.conflicted variants)
  | .found value => do return .found (← f value)

/-- Follow the cursor of a paged query, with the limit of each page, for at most so many pages. -/
def followPages {P : Type} (query : PageRequest → Except IoError P) (next : P → Option OpId)
    (limits : ℕ → ℕ) : ℕ → ℕ → Option OpId → Except IoError (List P)
  | 0, _, _ => .ok []
  | fuel + 1, n, after => do
    let page ← query ⟨after, limits n⟩
    match next page with
    | none => return [page]
    | some _ => return page :: (← followPages query next limits fuel (n + 1) (next page))

/-- The availability of content in an entry of the history. -/
def contentState : Index.ContentState → Activity.ContentState
  | .available => .available
  | .missing => .missing
  | .corrupt => .corrupt
  | .unresolvable => .unresolvable

section

variable [AddressHash]

/-- An entry of the history with the availability of its content. -/
def HistoryEntry.evidence (entry : HistoryEntry (Migration.Op payloads) ContentReference) :
    Activity.HistoryEntry RecordRef :=
  ⟨entry.operation, entry.recordRef,
    entry.content.map fun (reference, state) => ⟨reference, contentState state⟩⟩

/-! ## Search -/

/-- First exact occurrence in one content field, as a half-open range of byte offsets. -/
structure FieldMatch where
  field : ContentField
  start : ℕ
  stop : ℕ
deriving DecidableEq

/-- One recorded operation containing one or more literal field matches. -/
structure SearchHit where
  recordRef : RecordRef
  /-- First match per field, in schema order. -/
  fields : List FieldMatch

/-- A bounded search scan, retaining gaps even for operations with no known match. -/
structure SearchPage where
  /-- Matching operations in the order of identities. -/
  hits : List SearchHit
  /-- Content that could not be searched, including absent revision snapshots. -/
  unavailable : List (ContentResult RecordRef)
  /-- Number of candidate operations searched in this page. -/
  scanned : ℕ
  nextAfter : Option OpId

variable (resolve : ContentReference → Except IoError Activity.BlobResolution)

/-- The loop of `search` over the fields of an operation. -/
def searchFields (text : Bytes) (entry : Activity.HistoryEntry RecordRef) :
    List (ContentField × FieldSource) → List FieldMatch → List (ContentResult RecordRef) →
    Except IoError (List FieldMatch × List (ContentResult RecordRef))
  | [], found, unavailable => .ok (found, unavailable)
  | (field, source) :: rest, found, unavailable => do
    let content ← Activity.resolveField resolve entry field source
    match content.value with
    | .available bytes =>
      match Occurrence.first text bytes with
      | some start =>
        searchFields text entry rest (found ++ [⟨field, start, start + text.length⟩]) unavailable
      | none => searchFields text entry rest found unavailable
    | _ => searchFields text entry rest found (unavailable ++ [content])

/-- The loop of `search` over the operations of a page. -/
def searchEntries (text : Bytes) :
    List (HistoryEntry (Migration.Op payloads) ContentReference) → List SearchHit →
    List (ContentResult RecordRef) → Except IoError (List SearchHit × List (ContentResult RecordRef))
  | [], hits, unavailable => .ok (hits, unavailable)
  | entry :: rest, hits, unavailable => do
    let (found, unavailable) ←
      searchFields resolve text entry.evidence (Activity.queryFields entry.operation.kind) []
        unavailable
    let hits := if found = [] then hits else hits ++ [⟨entry.recordRef, found⟩]
    searchEntries text rest hits unavailable

/-! ## Git -/

/-- Select recorded Git commit observations and explicit links. -/
structure GitQuery where
  /-- Required repository identity; equal object IDs in other repositories stay separate. -/
  repository : UInt64
  /-- Exact object identity, or all objects recorded for the repository. -/
  oid : Option GitOid

/-- `matches`. -/
def GitQuery.selects (query : GitQuery) (repository : UInt64) (oid : GitOid) : Bool :=
  repository = query.repository ∧ query.oid.all fun target => decide (target = oid)

/-- What `git` retains: commits and links with an object of the query. -/
def GitQuery.retains (query : GitQuery) : OpKind payloads OpId → Bool
  | .activity record =>
    match record.kind with
    | .commit _ commit => query.selects commit.repository commit.oid
    | .link link => link.targets.any fun target =>
      match target with
      | .git repository oid => query.selects repository oid
      | .operation _ | .item _ => false
    | _ => false
  | .gitCommit _ commit => query.selects commit.repository commit.oid
  | .gitLink _ link => query.selects link.targetRepo link.targetOid
  | _ => false

/-! ## Metadata -/

end
end EditChain.Engine

namespace EditChain.Index.ChainQueries

open Activity (ContentField ContentReference ContentResult payloads)
open Core Fallible Store
open Engine
open Migration (AddressHash)

variable [AddressHash] [Checksum] [Blake3]

local instance queriedSchema : IndexSchema (Migration.Op payloads) ContentReference IndexKey :=
  recordedSchema

variable (queries : ChainQueries (Migration.Op payloads) ContentReference IndexKey) (d : Directory)

section

variable (resolve : ContentReference → Except IoError Activity.BlobResolution)

/-- `contents`: every recorded content field in schema order. -/
def contents (id : OpId) : Except IoError (Lookup (List (ContentResult Engine.RecordRef))) := do
  (← queries.operation d id).tryMap fun entry => Activity.contents resolve entry.evidence

/-- `content`. -/
def content (id : OpId) (field : ContentField) :
    Except IoError (Lookup (ContentResult Engine.RecordRef)) := do
  (← queries.operation d id).tryMap fun entry => Activity.fieldContent resolve entry.evidence field

/-- `search`, of the bytes of a text. -/
def search (text : Bytes) (key : Option IndexKey) (request : PageRequest) :
    Except IoError SearchPage := do
  if text = [] ∨ 16384 < text.length then
    throw ⟨.invalidInput, "search text must contain 1 to 16384 bytes"⟩
  let history ← queries.history d key request
  let (hits, unavailable) ← searchEntries resolve text history.items [] []
  return ⟨hits, unavailable, history.items.length, history.nextAfter⟩

end

/-- `relationships`: all of them, or those at one entity. -/
def relationships (entity : Option EntityRef) (request : PageRequest) :
    Except IoError (QueryPage (RecordedRelationship ContentReference)) := do
  let history ← queries.history d none request
  return ⟨(history.items.flatMap recordedRelationships).filter fun relation =>
    entity.all fun entity => decide (relation.source = entity ∨ relation.target = entity),
    history.nextAfter⟩

/-- `git`. -/
def git (query : GitQuery) (request : PageRequest) :
    Except IoError (QueryPage (HistoryEntry (Migration.Op payloads) ContentReference)) := do
  let history ← queries.history d none request
  return { history with
    items := history.items.filter fun entry => query.retains entry.operation.kind }

/-- The lookups of the parents. -/
def lookups : List OpId → Except IoError (List (OperationLookup ContentReference))
  | [] => .ok []
  | parent :: rest => do
    let record ← queries.operation d parent
    return ⟨parent, record⟩ :: (← lookups rest)

end EditChain.Index.ChainQueries
