import Mathlib.Data.Finset.Card
import EditChain.Sync.Inventory

/-!
# One bounded object in flight in each direction

The messages between peers, the receiving side of one object's transfer (`Download`) and the side
that answers a peer's requests from a frozen snapshot (`Source`). Integers that arrive in messages
are natural numbers with the source's conversions written out. Lengths of values in memory are
natural numbers without a bound, so that adding them does not saturate.
-/

namespace EditChain.Sync

open Core Fallible

variable {Op : Type} [Schema Op] [Blake3]

/-- Peer protocol messages carried only inside an authenticated channel. -/
inductive Message where
  /-- Negotiate the chain/sharing namespace, peer protocol and operation encoding. -/
  | hello (version encoding : ℕ) (space : String)
  /-- Begin a stable inventory or continue after an exclusive cursor. -/
  | inventory (after : Option RecordKey)
  /-- One bounded page of exact record identities. -/
  | page (offset total : ℕ) (records : List RecordKey) (more : Bool)
  /-- Request part of a record or its authorized referenced content. -/
  | need (record : RecordKey) (blob : Option Digest) (offset : ℕ)
  /-- A bounded chunk whose full digest is verified before durable publication. -/
  | chunk (record : RecordKey) (blob : Option Digest) (offset total : ℕ) (bytes : Bytes)
  /-- Content is not currently available or permitted for this record. -/
  | missing (record : RecordKey) (blob : Option Digest)
  /-- The object is durable at the sender of this message. -/
  | ack (record : RecordKey) (blob : Option Digest)
  /-- The page that ends at this position is checked. -/
  | checked (position : ℕ)
deriving DecidableEq, Repr

/-- `io::Error::other` around a failed integer conversion. -/
def conversionError : IoError := ⟨.other, "out of range integral type conversion attempted"⟩

/-! ## Progress of one direction -/

/-- One direction's stable inventory check. -/
structure CheckProgress where
  /-- Connection-local pass number; zero before the first request. -/
  pass : ℕ := 0
  /-- Exact record count in the frozen inventory, absent until the first page arrives. -/
  totalRecords : Option ℕ := none
  /-- Records whose page has finished checking records and referenced content. -/
  checkedRecords : ℕ := 0
  /-- The last page has finished, including all requested content responses. -/
  complete : Bool := false
  /-- Content requests that could not be satisfied in this pass. -/
  unavailable : ℕ := 0
deriving DecidableEq, Repr

/-- One partially downloaded object. -/
structure DownloadProgress where
  content : Bool
  receivedBytes : ℕ
  totalBytes : Option ℕ
deriving DecidableEq, Repr

/-! ## Objects and downloads -/

/-- A record, or content that a record refers to. -/
structure Object where
  record : RecordKey
  blob : Option Digest
deriving DecidableEq, Repr

namespace Object

/-- Request the object from an offset. -/
def need (object : Object) (offset : ℕ) : Except IoError Message :=
  if 2 ^ 32 ≤ offset then .error conversionError
  else .ok (.need object.record object.blob offset)

/-- Acknowledge the object. -/
def ack (object : Object) : Message := .ack object.record object.blob

end Object

/-- An object that is being received. -/
structure Download where
  object : Object
  bytes : Bytes
  total : Option ℕ
deriving DecidableEq, Repr

namespace Download

/-- Buffered progress of the object. -/
def progress (download : Download) : DownloadProgress where
  content := download.object.blob.isSome
  receivedBytes := download.bytes.length
  totalBytes := download.total

/-- Nothing received yet. -/
def new (object : Object) : Download := ⟨object, [], none⟩

/-- Append a chunk; the answer says whether the object is complete. -/
def append (object : Object) (offset total : ℕ) (bytes : Bytes) :
    Fallible IoError Download Bool := do
  let download ← get
  let stop := offset + bytes.length
  if u64Max < stop then throw (invalid "chunk length overflow")
  if object ≠ download.object ∨ offset ≠ download.bytes.length ∨ maxObjectBytes < total
      ∨ download.total.any (fun previous => decide (previous ≠ total)) ∨ total < stop
      ∨ chunkBytes < bytes.length ∨ (bytes = [] ∧ stop ≠ total) then
    throw (invalid "unexpected object, offset or chunk size")
  set { download with total := some total, bytes := download.bytes ++ bytes }
  return decide (stop = total)

end Download

/-! ## The answering side -/

/-- What is being sent to a peer from one frozen snapshot. -/
structure Source where
  progress : CheckProgress := {}
  snapshot : Option Snapshot := none
  order : List RecordKey := []
  next : ℕ := 0
  cursor : Option RecordKey := none
  more : Bool := false
  /-- The object being sent, its bytes and the offset of the next chunk. -/
  active : Option (Object × Bytes × ℕ) := none
  unacked : Finset Object := ∅
  awaitingCheck : Bool := false

namespace Source

variable {R : Type} [ReplicationStorage R]

/-- Call the storage that answers for the source. -/
def onStorage {α : Type} (m : Fallible IoError R α) : Fallible IoError (Source × R) α :=
  zoom Prod.snd (fun storage s => (s.1, storage)) m

/-- Run code of the source that does not need the storage. -/
def onSource {α : Type} (m : Fallible IoError Source α) : Fallible IoError (Source × R) α :=
  zoom Prod.fst (fun source s => (source, s.2)) m

/-- Freeze a fresh snapshot and start at its first page. -/
def freeze : Fallible IoError (Source × R) Unit := do
  let snapshot ← onStorage ReplicationStorage.snapshot
  let order ← lift snapshot.orderedKeys
  onSource (modify fun source =>
    { source with
      order := order
      progress :=
        { pass := saturatingAdd source.progress.pass 1, totalRecords := some order.length }
      snapshot := some snapshot
      next := 0 })

/-- The keys of the next page. -/
def nextRecords (source : Source) : List RecordKey :=
  (source.order.drop source.next).take inventoryPage

/-- The source after it has offered its next page. -/
def offered (source : Source) : Source :=
  let next := source.next + source.nextRecords.length
  { source with
    next := next
    cursor := source.nextRecords.getLast?
    more := decide (next < source.order.length)
    awaitingCheck := true }

/-- The next page as a message. -/
def nextPage (source : Source) : Message :=
  .page source.next source.order.length source.nextRecords
    (decide (source.next + source.nextRecords.length < source.order.length))

/-- Start over, or check that the request continues after the last page. -/
def locate (after : Option RecordKey) : Fallible IoError (Source × R) Unit := do
  let state ← get
  if after.isNone then freeze
  else if after ≠ state.1.cursor ∨ ¬ state.1.more then
    throw (invalid "invalid inventory continuation")

/-- Answer a request for the first or the following page. -/
def inventory (after : Option RecordKey) : Fallible IoError (Source × R) Message := do
  let state ← get
  if state.1.active.isSome ∨ state.1.unacked ≠ ∅ ∨ state.1.awaitingCheck then
    throw (invalid "inventory before pending transfers were acknowledged")
  locate after
  let state ← get
  onSource (set state.1.offered)
  return state.1.nextPage

/-- The source after it has sent the active object up to an offset. -/
def advanced (object : Object) (bytes : Bytes) (next : ℕ) (source : Source) : Source :=
  if next = bytes.length then
    { source with active := none, unacked := insert object source.unacked }
  else { source with active := some (object, bytes, next) }

/-- Send the next chunk of the active object. -/
def sendChunk (object : Object) (offset : ℕ) : Fallible IoError Source Message := do
  let source ← get
  match source.active with
  | none => throw (invalid "chunk without an active transfer")
  | some (active, bytes, next) =>
    if active ≠ object ∨ next ≠ offset then throw (invalid "out-of-order object request")
    if 2 ^ 32 ≤ bytes.length then throw conversionError
    if bytes.length < offset then throw (invalid "offset past object")
    let chunk := (bytes.drop offset).take chunkBytes
    set (source.advanced object bytes (next + chunk.length))
    return .chunk object.record object.blob offset bytes.length chunk

/-- The bytes of an object of the frozen snapshot, absent when the content is missing. -/
def load (object : Object) : Fallible IoError (Source × R) (Option Bytes) := do
  let state ← get
  match state.1.snapshot with
  | none => throw (invalid "need before inventory")
  | some snapshot =>
    match snapshot.record object.record with
    | none => throw (invalid "record outside offered inventory")
    | some encoded =>
      match object.blob with
      | some hash => onStorage (ReplicationStorage.readBlob snapshot object.record hash)
      | none => return some encoded

/-- Answer a request for a chunk. -/
def need (object : Object) (offset : ℕ) : Fallible IoError (Source × R) Message := do
  let state ← get
  if ¬ state.1.awaitingCheck then
    throw (invalid "object request outside an active inventory page")
  if offset = 0 then
    if state.1.active.isSome ∨ inventoryPage ≤ state.1.unacked.card
        ∨ object ∈ state.1.unacked then
      throw (invalid "too many in-flight objects")
    match ← load object with
    | none =>
      onSource (modify fun source =>
        { source with
          progress.unavailable := saturatingAdd source.progress.unavailable 1 })
      return .missing object.record object.blob
    | some bytes =>
      onSource (modify fun source => { source with active := some (object, bytes, 0) })
      onSource (sendChunk object offset)
  else onSource (sendChunk object offset)

/-- The peer has made an object durable. -/
def ack (object : Object) : Fallible IoError Source Unit := do
  let source ← get
  if object ∉ source.unacked then throw (invalid "acknowledgment for an unsent object")
  set { source with unacked := source.unacked.erase object }

/-- The peer has checked the page that ends at a position. -/
def checked (position : ℕ) : Fallible IoError Source Unit := do
  let source ← get
  if ¬ source.awaitingCheck ∨ source.active.isSome ∨ source.unacked ≠ ∅
      ∨ position ≠ source.next then
    throw (invalid "unexpected inventory check confirmation")
  set { source with
    awaitingCheck := false
    progress := { source.progress with
      checkedRecords := position, complete := !source.more } }

end Source
end EditChain.Sync
