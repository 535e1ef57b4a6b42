import EditChain.Sync.Transfer

/-!
# Pull-based reconciliation

A session with one authenticated peer: it pulls the peer's inventory page by page and object by
object, answers the peer's own requests from a `Source`, and acknowledges only what its storage has
made durable. A failed call invalidates the session.
-/

namespace EditChain.Sync

open Core Fallible

variable {Op : Type} [Schema Op] [Blake3]

/-- Bytes of staged records that trigger a durable batch. -/
def batchBytes : ℕ := 4 * 1024 * 1024

/-- Largest inventory total that crosses JSON unchanged. -/
def maxTotal : ℕ := 9007199254740991

/-- Most content references of one record. -/
def maxReferences : ℕ := 4096

/-- Current check work and durable, connection-local transfer counts. -/
structure Progress where
  /-- Namespace/version negotiation has succeeded over an authenticated channel. -/
  accepted : Bool := false
  /-- An incoming reconciliation round is in progress. -/
  synchronizing : Bool := false
  /-- Completed incoming inventory rounds, not a claim about future edits. -/
  rounds : ℕ := 0
  /-- Exact records durably received on this connection. -/
  records : ℕ := 0
  /-- Content blobs durably received on this connection. -/
  blobs : ℕ := 0
  /-- Sent records acknowledged as durable by the authenticated remote peer. -/
  sentRecords : ℕ := 0
  /-- Sent blobs acknowledged as durable by the authenticated remote peer. -/
  sentBlobs : ℕ := 0
  /-- Missing content responses in the current or last incoming round. -/
  unavailable : ℕ := 0
  /-- This device's check of the peer's shared history. -/
  incoming : CheckProgress := {}
  /-- The peer's confirmed check of this device's shared history. -/
  outgoing : CheckProgress := {}
  /-- Known records in this page still to be saved, including staged bytes. -/
  pendingRecords : ℕ := 0
  /-- Known content objects queued or being downloaded. -/
  pendingBlobs : ℕ := 0
  /-- Buffered progress of the current object; never counted as saved data. -/
  download : Option DownloadProgress := none
deriving DecidableEq, Repr

/-- The pulling side of a round. -/
structure Pull where
  waitingPage : Bool := false
  position : ℕ := 0
  after : Option RecordKey := none
  more : Bool := false
  keys : List RecordKey := []
  records : List RecordKey := []
  blobs : List Object := []
  tried : Finset Object := ∅
  staged : List (RecordKey × Bytes) := []
  stagedBytes : ℕ := 0
  download : Option Download := none

/-- Replication state for one already authenticated, authorized peer. -/
structure Session (R : Type) where
  replica : R
  source : Source := {}
  localSnapshot : Snapshot := .empty
  pull : Pull := {}
  progress : Progress := {}
  failed : Bool := false

namespace Session

variable {R : Type} [ReplicationStorage R]

/-- Construct without reading or exposing inventory before negotiation. -/
def new (replica : R) : Session R := { replica := replica }

/-- First message, sent only after the secure channel authenticates the peer. -/
def hello (session : Session R) : Message :=
  .hello peerVersion 1 (ReplicationStorage.namespaceOf session.replica)

/-! ## Parts of a session -/

/-- Call the storage. -/
def onReplica {α : Type} (m : Fallible IoError R α) : Fallible IoError (Session R) α :=
  zoom Session.replica (fun replica s => { s with replica := replica }) m

/-- Call the storage with the local snapshot. -/
def onLocal {α : Type} (m : Fallible IoError (R × Snapshot) α) : Fallible IoError (Session R) α :=
  zoom (fun s => (s.replica, s.localSnapshot))
    (fun t s => { s with replica := t.1, localSnapshot := t.2 }) m

/-- Let the source answer from the storage. -/
def onSource {α : Type} (m : Fallible IoError (Source × R) α) : Fallible IoError (Session R) α :=
  zoom (fun s => (s.source, s.replica)) (fun t s => { s with source := t.1, replica := t.2 }) m

/-- `update_work`: mirror the state of both directions in the progress. The conversions of lengths
to 64-bit counters cannot fail. -/
def updateWork (session : Session R) : Session R :=
  let downloading := session.pull.download.map Download.object
  { session with
    progress := { session.progress with
      outgoing := session.source.progress
      pendingRecords := session.pull.records.length + session.pull.staged.length
        + (if downloading.any (fun object => object.blob.isNone) then 1 else 0)
      pendingBlobs := session.pull.blobs.length
        + (if downloading.any (fun object => object.blob.isSome) then 1 else 0)
      download := session.pull.download.map Download.progress } }

/-- `ensure_open`: a failed session stays failed. -/
def ensureOpen : Fallible IoError (Session R) Unit := do
  if (← get).failed then throw (invalid "failed replication session; reconnect")

/-- Run a call and remember whether it failed. -/
def guarded {α : Type} (m : Fallible IoError (Session R) α) : Fallible IoError (Session R) α :=
  of fun s =>
    let (result, t) := m.exec s
    (result, { t with failed := !result.isOk })

/-! ## Rounds -/

/-- The session at the start of a round. -/
def started (localSnapshot : Snapshot) (session : Session R) : Session R :=
  { session with
    localSnapshot := localSnapshot
    pull := { waitingPage := true }
    progress := { session.progress with
      synchronizing := true
      unavailable := 0
      incoming := { pass := saturatingAdd session.progress.rounds 1 } } }

/-- Ask for a fresh inventory, unless a round is in flight. -/
def startRound : Fallible IoError (Session R) (List Message) := do
  onReplica ReplicationStorage.ensureScope
  let session ← get
  if !session.progress.accepted || session.progress.synchronizing then return []
  else
    let localSnapshot ← onReplica ReplicationStorage.receivingSnapshot
    modify fun session => (session.started localSnapshot).updateWork
    return [.inventory none]

/-- Start another inventory round to repair interrupted or newly appended work. -/
def tick : Fallible IoError (Session R) (List Message) := do
  ensureOpen
  guarded startRound

/-! ## Pages -/

/-- The session after it has taken in a page that ends at a position. -/
def turned (stop total : ℕ) (records : List RecordKey) (more : Bool) (session : Session R) :
    Session R :=
  { session with
    progress := { session.progress with
      incoming := { session.progress.incoming with totalRecords := some total } }
    pull := { session.pull with
      position := stop
      after := records.getLast?
      waitingPage := false
      more := more
      records := records.filter fun key => !session.localSnapshot.contains key
      keys := records
      tried := ∅ } }

/-- Take in one inventory page. -/
def page (offset total : ℕ) (records : List RecordKey) (more : Bool) :
    Fallible IoError (Session R) Unit := do
  let session ← get
  if ¬ session.pull.waitingPage ∨ inventoryPage < records.length ∨ (more ∧ records = []) then
    throw (invalid "unsolicited or oversized inventory page")
  if offset ≠ session.pull.position ∨ records.toFinset.card ≠ records.length then
    throw (invalid "invalid inventory position or duplicate keys")
  let stop := offset + records.length
  if u64Max < stop then throw (invalid "inventory position overflow")
  if maxTotal < total ∨ total < stop ∨ more ≠ decide (stop < total)
      ∨ session.progress.incoming.totalRecords.any (fun before => decide (before ≠ total)) then
    throw (invalid "inconsistent inventory total")
  modify (turned stop total records more)

/-! ## Objects -/

/-- The session after a batch has become durable. -/
def flushed (session : Session R) : Session R :=
  { session with
    pull := { session.pull with staged := [], stagedBytes := 0 }
    progress := { session.progress with
      records := session.pull.staged.foldl (fun n _ => saturatingAdd n 1)
        session.progress.records } }

/-- Make the staged records durable and acknowledge them. -/
def flush (replies : List Message) : Fallible IoError (Session R) (List Message) := do
  let session ← get
  if session.pull.staged = [] then return replies
  else
    onLocal (ReplicationStorage.ingestRecords session.pull.staged)
    modify flushed
    return replies ++ session.pull.staged.map fun staged => Object.ack ⟨staged.1, none⟩

/-- Flush when a limit is reached. -/
def flushIf (limit : Prop) [Decidable limit] (replies : List Message) :
    Fallible IoError (Session R) (List Message) :=
  if limit then flush replies else return replies

/-- The session after a blob has become durable. -/
def published (hash : Digest) (session : Session R) : Session R :=
  { session with
    localSnapshot := session.localSnapshot.receivedBlob hash
    progress := { session.progress with blobs := saturatingAdd session.progress.blobs 1 } }

/-- The session with one more staged record. -/
def stage (record : RecordKey) (bytes : Bytes) (session : Session R) : Session R :=
  { session with
    pull := { session.pull with
      stagedBytes := saturatingAdd session.pull.stagedBytes bytes.length
      staged := session.pull.staged ++ [(record, bytes)] } }

/-- Take the finished download. -/
def takeDownload (session : Session R) : Session R :=
  { session with pull := { session.pull with download := none } }

/-- Publish a received blob. -/
def completeBlob (download : Download) (hash : Digest) (replies : List Message) :
    Fallible IoError (Session R) (List Message) := do
  onReplica (ReplicationStorage.ingestBlob download.object.record hash download.bytes)
  modify (published hash)
  return replies ++ [download.object.ack]

/-- Stage a received record, flushing before the batch grows too large and once it is large. -/
def completeRecord (download : Download) (replies : List Message) :
    Fallible IoError (Session R) (List Message) := do
  if (← lift (RecordKey.fromEncoded download.bytes)) ≠ download.object.record then
    throw (invalid "received record digest or identity mismatch")
  let session ← get
  let replies ← flushIf
    (maxObjectBytes < saturatingAdd session.pull.stagedBytes download.bytes.length) replies
  modify (stage download.object.record download.bytes)
  let session ← get
  flushIf (batchBytes ≤ session.pull.stagedBytes) replies

/-- Take in a completely received object. -/
def complete (replies : List Message) : Fallible IoError (Session R) (List Message) := do
  let session ← get
  match session.pull.download with
  | none => throw (invalid "missing completed transfer")
  | some download =>
    modify takeDownload
    match download.object.blob with
    | some hash => completeBlob download hash replies
    | none => completeRecord download replies

/-- The session with an object queued for download. -/
def queued (object : Object) (session : Session R) : Session R :=
  { session with pull := { session.pull with blobs := session.pull.blobs ++ [object] } }

/-- Look at one reference: content that was not tried before is confirmed or queued. -/
def findBlob (key : RecordKey) (hash : Digest) : Fallible IoError (Session R) Unit := do
  let session ← get
  let object : Object := ⟨key, some hash⟩
  if object ∉ session.pull.tried then
    modify fun session =>
      { session with pull := { session.pull with tried := insert object session.pull.tried } }
    if !(← onReplica (ReplicationStorage.confirmBlob session.localSnapshot key hash)) then
      modify (queued object)

/-- Look at all references of one record. -/
def findKey (key : RecordKey) : Fallible IoError (Session R) Unit := do
  let session ← get
  let hashes ← onReplica (ReplicationStorage.blobHashes session.localSnapshot key)
  if maxReferences < hashes.size then
    throw (invalid "record content-reference limit exceeded")
  forM hashes.toList (findBlob key)

/-- Look at all references of the page's records. -/
def findBlobs : Fallible IoError (Session R) Unit := do
  let session ← get
  forM session.pull.keys findKey

/-- The session while it downloads an object. -/
def downloading (object : Object) (session : Session R) : Session R :=
  { session with pull := { session.pull with download := some (.new object) } }

/-- Request an object. -/
def download (object : Object) (replies : List Message) :
    Fallible IoError (Session R) (List Message) := do
  let request ← lift (object.need 0)
  modify (downloading object)
  return replies ++ [request]

/-- The session after it has checked a page. -/
def checkedPage (session : Session R) : Session R :=
  { session with
    progress := { session.progress with
      incoming := { session.progress.incoming with checkedRecords := session.pull.position } } }

/-- The session after it has checked the last page. -/
def completed (session : Session R) : Session R :=
  { session with
    progress := { session.progress with
      synchronizing := false
      rounds := saturatingAdd session.progress.rounds 1
      incoming := { session.progress.incoming with complete := true } } }

/-- Confirm the page, and ask for the next one or end the round. -/
def finishPage (replies : List Message) : Fallible IoError (Session R) (List Message) := do
  modify checkedPage
  let session ← get
  let replies := replies ++ [.checked session.pull.position]
  if session.pull.more then
    modify fun session => { session with pull := { session.pull with waitingPage := true } }
    return replies ++ [.inventory session.pull.after]
  else
    modify completed
    return replies

/-- Look for content when none is queued. -/
def searchBlobs : Fallible IoError (Session R) Unit := do
  if (← get).pull.blobs = [] then findBlobs

/-- Request the next object of the page, or confirm the page. -/
def advance (replies : List Message) : Fallible IoError (Session R) (List Message) := do
  let session ← get
  match session.pull.records with
  | record :: rest =>
    modify fun session => { session with pull := { session.pull with records := rest } }
    download ⟨record, none⟩ replies
  | [] =>
    let replies ← flush replies
    searchBlobs
    match (← get).pull.blobs with
    | object :: rest =>
      modify fun session => { session with pull := { session.pull with blobs := rest } }
      download object replies
    | [] => finishPage replies

/-! ## Messages -/

/-- The session after the peer has acknowledged an object. -/
def acknowledged (object : Object) (session : Session R) : Session R :=
  { session with
    progress :=
      if object.blob.isSome then
        { session.progress with sentBlobs := saturatingAdd session.progress.sentBlobs 1 }
      else { session.progress with sentRecords := saturatingAdd session.progress.sentRecords 1 } }

/-- The peer has acknowledged an object. -/
def acknowledge (object : Object) : Fallible IoError (Session R) Unit := do
  onSource (Source.onSource (Source.ack object))
  modify (acknowledged object)

/-- A chunk of the object being downloaded. -/
def chunk (object : Object) (offset total : ℕ) (bytes : Bytes) :
    Fallible IoError (Session R) (List Message) := do
  let session ← get
  match session.pull.download with
  | none => throw (invalid "unsolicited object chunk")
  | some download =>
    let (result, download) := (Download.append object offset total bytes).exec download
    let done ← lift result
    modify fun session =>
      { session with pull := { session.pull with download := some download } }
    if done then
      let replies ← complete []
      advance replies
    else
      let request ← lift (download.object.need download.bytes.length)
      return [request]

/-- The session after content was answered to be missing. -/
def withoutContent (session : Session R) : Session R :=
  let unavailable := saturatingAdd session.progress.unavailable 1
  { session with
    progress := { session.progress with
      unavailable := unavailable
      incoming := { session.progress.incoming with unavailable := unavailable } } }

/-- The peer does not have the content that was asked for. -/
def missing (object : Object) : Fallible IoError (Session R) (List Message) := do
  let session ← get
  match session.pull.download with
  | none => throw (invalid "unsolicited missing response")
  | some download =>
    modify takeDownload
    if download.object ≠ object ∨ object.blob.isNone ∨ download.bytes ≠ [] then
      throw (invalid "missing response for a different or partial object")
    modify withoutContent
    advance []

/-- Another version or encoding than this session's. -/
def incompatible : Message → Bool
  | .hello version encoding _ => version ≠ peerVersion ∨ encoding ≠ 1
  | _ => false

/-- The first message must be the peer's hello, and starts a round. -/
def negotiate (message : Message) : Fallible IoError (Session R) (List Message) := do
  let session ← get
  if incompatible message then throw ⟨.unsupported, "incompatible peer protocol"⟩
  if message ≠ session.hello then
    throw (invalid "peer version, encoding or space mismatch")
  modify fun session => { session with progress := { session.progress with accepted := true } }
  tick

/-- Handle one message of an accepted peer. -/
def dispatch : Message → Fallible IoError (Session R) (List Message)
  | .hello .. => throw (invalid "duplicate peer hello")
  | .inventory after => do return [← onSource (Source.inventory after)]
  | .need record blob offset => do return [← onSource (Source.need ⟨record, blob⟩ offset)]
  | .ack record blob => do
    acknowledge ⟨record, blob⟩
    return []
  | .checked position => do
    onSource (Source.onSource (Source.checked position))
    return []
  | .page offset total records more => do
    page offset total records more
    advance []
  | .chunk record blob offset total bytes => chunk ⟨record, blob⟩ offset total bytes
  | .missing record blob => missing ⟨record, blob⟩

/-- Validate and process one message. -/
def process (message : Message) : Fallible IoError (Session R) (List Message) := do
  onReplica ReplicationStorage.ensureScope
  if (← get).progress.accepted then
    let replies ← dispatch message
    modify updateWork
    return replies
  else negotiate message

/-- Validate and process one authenticated peer message. -/
def receive (message : Message) : Fallible IoError (Session R) (List Message) := do
  ensureOpen
  guarded (process message)

end Session
end EditChain.Sync
