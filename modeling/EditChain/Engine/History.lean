import EditChain.Index.Prefix
import EditChain.Lib.Paging
import Mathlib.Data.List.Sort

/-!
# Paging through the recorded history

An operation is looked up in the index, together with its encoded representations as they are read
back from their segments. Accepted history is read in pages in the order of identities, all of it or
what one indexed fact selects. A cursor is exclusive, and one candidate beyond the page tells
whether there is more.
-/

namespace EditChain.Engine

open Index (ContentState)

/-- Portable reference to one exact recorded operation representation. -/
structure RecordRef where
  /-- Recorded identity, which can have more than one conflicting representation. -/
  operation : OpId
  /-- Full BLAKE3 digest of the original encoded operation bytes. -/
  recordHash : Digest
deriving DecidableEq

/-- Original encoded operation bytes and their stable reference. -/
structure EncodedRecord where
  reference : RecordRef
  encoded : Bytes
deriving DecidableEq

/-- One accepted operation with its record reference and the availability of its content. -/
structure HistoryEntry (Op Ref : Type) where
  operation : Op
  recordRef : RecordRef
  content : List (Ref × ContentState)

/-- Lookup outcomes keep missing and conflicted identities distinct. -/
inductive Lookup (α : Type) where
  /-- No decodable record with this operation identity was recorded. -/
  | missing
  /-- Multiple representations quarantine the entire identity. -/
  | conflicted (variants : List RecordRef)
  /-- A result derived from the single accepted representation. -/
  | found (value : α)

/-- Bounded query page, ordered by operation identity with an exclusive cursor. -/
structure PageRequest where
  /-- Resume strictly after this operation identity. -/
  after : Option OpId := none
  /-- Number of candidate operations to inspect, from 1 through 1000. -/
  limit : ℕ := 100

/-- `validate`. -/
def PageRequest.validate (request : PageRequest) : Except IoError PageRequest :=
  if 1 ≤ request.limit ∧ request.limit ≤ 1000 then .ok request
  else .error ⟨.invalidInput, "query page limit must be between 1 and 1000"⟩

/-- Results and continuation through the inspected operation candidates. -/
structure QueryPage (α : Type) where
  items : List α
  /-- Last inspected identity when additional candidates remain. -/
  nextAfter : Option OpId

end EditChain.Engine

namespace EditChain.Index

open Core Fallible Store
open Engine (EncodedRecord HistoryEntry Lookup PageRequest QueryPage)
open Std (TransOrd)

variable {Op Ref Key : Type} [Ord Ref] [DecidableEq Key]

namespace ChainIndex

variable (index : ChainIndex Op Ref Key)

/-- `get`. -/
protected def get (id : OpId) : Option Op := index.state.tail.chain.get id

/-- `operations`: accepted identities in their order. -/
def operations (after : Option OpId) (limit : ℕ) : List OpId :=
  (Paging.beyond after index.state.records.keys).take limit

/-- `lookup`: identities with one recorded fact, in their order. -/
def lookup (key : Key) (after : Option OpId) (limit : ℕ) : List OpId :=
  (Paging.beyond after (index.state.postings.owners key).toList).take limit

/-- `record_variants`, without the locations. -/
def recordVariants [Checksum] (d : Directory) (id : OpId) : Except IoError (List Bytes) :=
  (index.state.tail.chain.recordLocations id).mapM (readEncodedAt d)

end ChainIndex

namespace ChainQueries

variable [Checksum] [Blake3] (queries : ChainQueries Op Ref Key) (d : Directory)

/-- `record_variants`: all retained representations, sorted by encoded bytes. -/
def recordVariants (id : OpId) : Except IoError (List EncodedRecord) := do
  let records ← queries.index.recordVariants d id
  return (records.insertionSort (· ≤ ·)).map fun encoded =>
    ⟨⟨id, Blake3.hash encoded⟩, encoded⟩

variable [TransOrd Ref] [IndexSchema Op Ref Key]

/-- `operation`: a conflicted representation is never chosen silently. -/
def operation (id : OpId) : Except IoError (Lookup (HistoryEntry Op Ref)) := do
  let variants ← queries.recordVariants d id
  match queries.index.get id with
  | none =>
    if variants.isEmpty then return .missing
    else return .conflicted (variants.map EncodedRecord.reference)
  | some operation =>
    match variants with
    | [record] => do
      let content ← ((← queries.index.state.contentOf id).elim
        (.error (invalid "accepted operation lacks indexed content")) .ok)
      return .found ⟨operation, record.reference, content⟩
    | _ => .error (invalid "accepted operation lacks a unique encoded record")

/-- The loop of `history` over the identities of a page. -/
def entries : List OpId → Except IoError (List (HistoryEntry Op Ref))
  | [] => .ok []
  | id :: rest => do
    match ← queries.operation d id with
    | .found entry => return entry :: (← entries rest)
    | .missing | .conflicted _ => entries rest

/-- `history`: accepted history, optionally selecting one explicit indexed fact. -/
def history (key : Option Key) (request : PageRequest) :
    Except IoError (QueryPage (HistoryEntry Op Ref)) := do
  let request ← request.validate
  let ids := match key with
    | some key => queries.index.lookup key request.after (request.limit + 1)
    | none => queries.index.operations request.after (request.limit + 1)
  let more := request.limit < ids.length
  let ids := ids.take request.limit
  let nextAfter := if more then ids.getLast? else none
  return ⟨← queries.entries d ids, nextAfter⟩

/-- The loop of `all_history`. -/
def allHistoryLoop (key : Option Key) : ℕ → PageRequest →
    Except IoError (List (HistoryEntry Op Ref))
  | 0, _ => .ok []
  | fuel + 1, request => do
    let page ← queries.history d key request
    match page.nextAfter with
    | none => return page.items
    | some after => return page.items ++ (← allHistoryLoop key fuel { request with after := after })

/-- The identities that the pages of a history go through. -/
def candidates (key : Option Key) : List OpId :=
  match key with
  | some key => (queries.index.state.postings.owners key).toList
  | none => queries.index.state.records.keys

/-- `all_history`. Every page but the last moves the cursor over a candidate, so one round more than
there are candidates is enough (`history_complete`). -/
def allHistory (key : Option Key) : Except IoError (List (HistoryEntry Op Ref)) :=
  queries.allHistoryLoop d key ((queries.candidates key).length + 1) ⟨none, 1000⟩

/-- Follow the cursor from page to page, with the limit of each page, for at most so many pages. -/
def followHistory (key : Option Key) (limits : ℕ → ℕ) : ℕ → ℕ → Option OpId →
    Except IoError (List (QueryPage (HistoryEntry Op Ref)))
  | 0, _, _ => .ok []
  | fuel + 1, n, after => do
    let page ← queries.history d key ⟨after, limits n⟩
    match page.nextAfter with
    | none => return [page]
    | some _ => return page :: (← followHistory key limits fuel (n + 1) page.nextAfter)

end ChainQueries
end EditChain.Index
