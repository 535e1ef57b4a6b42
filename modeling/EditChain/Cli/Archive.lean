import EditChain.Store.Reader
import EditChain.Sync.Adapter

/-!
# Portable evidence archives

An export writes every retained record of a chain, conflicting ones included, and the content that
these records refer to, as a sequence of entries. A restore admits the entries into a chain in
bounded batches, content first. Entries are written and read as JSON, which is not modelled; nor are
failures of the output.
-/

namespace EditChain.Cli

open Core Fallible Store Sync
open Std (ExtTreeMap ExtTreeSet)

variable {Op : Type} [Schema Op] [Blake3]

/-! ## Failures -/

/-- A process outcome: exit status and diagnostic. -/
structure Failure where
  code : ℕ
  message : String
deriving DecidableEq, Repr

namespace Failure

/-- Report invalid user input with exit status 2. -/
def input (message : String) : Failure := ⟨2, message⟩

/-- `From<io::Error>`. -/
def ofIo (error : IoError) : Failure where
  code :=
    match error.kind with
    | .invalidInput => 2
    | .notFound => 3
    | .invalidData => 4
    | .unexpectedEof => 4
    | .wouldBlock => 5
    | .interrupted => 130
    | _ => 1
  message := error.text

/-- `conflict_result`. -/
def conflict : Failure :=
  ⟨4, "conflicting record variants were retained; the identity is quarantined"⟩

end Failure

/-- The `?` operator on the result of a call. -/
def io {σ α : Type} (m : Fallible IoError σ α) : Fallible Failure σ α :=
  of fun s => ((m.exec s).1.mapError Failure.ofIo, (m.exec s).2)

/-! ## Blob directories -/

/-- The files of a blob directory, by the hash that names them. -/
abbrev BlobFiles := ExtTreeMap Digest Bytes

namespace BlobFiles

/-- `read_content`. -/
def readContent (files : BlobFiles) : ContentId → BlobResolution
  | .hash256 hash =>
    match files[hash]? with
    | some bytes => if Blake3.hash bytes = hash then .found bytes else .corrupt
    | none => .missing
  | _ => .unresolvable

/-- The first loop of `publish_batch`: what is already there must match, the rest is pending. -/
def stage (files : BlobFiles) :
    List Bytes → ExtTreeMap Digest Bytes → List Bytes → Except IoError (List Bytes)
  | [], _, pending => .ok pending
  | bytes :: rest, unique, pending =>
    match unique[Blake3.hash bytes]? with
    | some previous =>
      if previous ≠ bytes then
        .error (invalid "batch contains different bytes for one immutable destination")
      else stage files rest (unique.insert (Blake3.hash bytes) bytes) pending
    | none =>
      match files[Blake3.hash bytes]? with
      | some existing =>
        if existing ≠ bytes then
          .error (invalid "existing blob does not match its content address")
        else stage files rest (unique.insert (Blake3.hash bytes) bytes) pending
      | none => stage files rest (unique.insert (Blake3.hash bytes) bytes) (pending ++ [bytes])

/-- `publish_batch`. -/
def publishBatch (cohort : List Bytes) : Fallible IoError BlobFiles Unit := do
  let files ← get
  let pending ← lift (stage files cohort ∅ [])
  set (pending.foldl (fun files bytes => files.insert (Blake3.hash bytes) bytes) files)

/-- `write_batch`, one cohort of 64 after the other. -/
def writeBatch : ℕ → List Bytes → Fallible IoError BlobFiles Unit
  | 0, _ => return ()
  | _, [] => return ()
  | fuel + 1, payloads => do
    publishBatch (payloads.take 64)
    writeBatch fuel (payloads.drop 64)

/-- `put_batch`. -/
def putBatch (payloads : List Bytes) : Fallible IoError BlobFiles Unit := do
  if payloads.any fun bytes => decide (2 ^ 32 ≤ bytes.length) then
    throw ⟨.invalidInput, "out of range integral type conversion attempted"⟩
  writeBatch payloads.length payloads

/-- A blob directory as the content of a replica. -/
def storage : BlobStorage BlobFiles where
  readContent id := do
    let files ← get
    return files.readContent id
  put bytes := do
    putBatch [bytes]
    return ⟨.hash256 (Blake3.hash bytes), bytes.length⟩

end BlobFiles

/-! ## Entries -/

/-- One line of an archive. -/
inductive Entry where
  | header (version : ℕ)
  | operation (encoded : Bytes)
  | blob (reference : BlobRef) (bytes : Bytes)
  | missingBlob (id : ContentId)
  | summary (stats : ChainReadStats)

/-- `Snapshot::page`: at most one page after an exclusive cursor, and whether there is more. -/
def snapshotPage (snapshot : Snapshot) (after : Option RecordKey) : List RecordKey × Bool :=
  let keys := snapshot.records.keys.filter fun key =>
    after.all fun cursor => decide (compare cursor key = .lt)
  (keys.take inventoryPage, !(keys.drop inventoryPage).isEmpty)

/-! ## Export -/

/-- The variables of an export. -/
structure Exporter (L : Type) where
  replica : StoreReplica L BlobFiles ExportScope
  emitted : List Entry := []
  exported : ExtTreeSet Digest := ∅
  missing : Bool := false

namespace Exporter

variable {L : Type} [ContentSchema Op] (log : AppendLog L)

/-- `replication::storage`. -/
def adapters : Adapters L BlobFiles ExportScope := ⟨log, BlobFiles.storage, ExportScope.policy⟩

/-- Call the replica. -/
def onReplica {α : Type} (m : Fallible IoError (StoreReplica L BlobFiles ExportScope) α) :
    Fallible Failure (Exporter L) α :=
  io (zoom Exporter.replica (fun replica e => { e with replica := replica }) m)

/-- Write one entry. -/
def emit (entry : Entry) : Fallible Failure (Exporter L) Unit :=
  modify fun e => { e with emitted := e.emitted ++ [entry] }

/-- The content behind one hash, unless it was exported before. -/
def exportBlob (snapshot : Snapshot) (key : RecordKey) (hash : Digest) :
    Fallible Failure (Exporter L) Unit := do
  let e ← get
  if hash ∈ e.exported then return ()
  else
    modify fun e => { e with exported := e.exported.insert hash }
    match ← onReplica (StoreReplica.readBlob (adapters log) snapshot key hash) with
    | some bytes =>
      if 2 ^ 32 ≤ bytes.length then
        throw ⟨4, "out of range integral type conversion attempted"⟩
      emit (.blob ⟨.hash256 hash, bytes.length⟩ bytes)
    | none =>
      modify fun e => { e with missing := true }
      emit (.missingBlob (.hash256 hash))

/-- A record and the content it refers to. -/
def exportKey (snapshot : Snapshot) (key : RecordKey) : Fallible Failure (Exporter L) Unit := do
  match snapshot.record key with
  | none => throw ⟨4, "export record disappeared"⟩
  | some encoded =>
    emit (.operation encoded)
    let hashes ← onReplica (StoreReplica.blobHashes (adapters log) snapshot key)
    forM hashes.toList (exportBlob log snapshot key)

/-- The loop over the pages of a snapshot. -/
def exportPages (snapshot : Snapshot) :
    ℕ → Option RecordKey → Fallible Failure (Exporter L) Unit
  | 0, _ => return ()
  | fuel + 1, after => do
    let (keys, more) := snapshotPage snapshot after
    forM keys (exportKey log snapshot)
    if more then exportPages snapshot fuel keys.getLast?

/-- `export`: the chain is the one that `ChainSnapshot::read` gives. Every page but the last has
records, so that their number is fuel enough. -/
def exportChain (chain : CanonicalChain Op) : Fallible Failure (Exporter L) Unit := do
  let (result, snapshot) := (insertAll (chain.evidence.evidenceList.map Prod.snd)).exec .empty
  io (lift result)
  emit (.header 1)
  exportPages log snapshot (snapshot.len + 1) none
  emit (.summary chain.stats)
  if 0 < chain.stats.undecodable ∨ 0 < chain.stats.incompleteTails then
    throw ⟨4, "export omitted unsupported or incomplete records; preserve original segment files"⟩
  let e ← get
  if e.missing then throw ⟨3, "export contains missing blobs"⟩

end Exporter

/-! ## Restore -/

/-- What is reported for an entry once it is durable. -/
inductive Reply where
  | operation (id : OpId)
  | blob (reference : BlobRef)

/-- One line of output. -/
inductive Line where
  | admission (id : OpId) (admission : Admission)
  | blob (reference : BlobRef)

/-- The variables of a restore, with the chain it writes to. -/
structure Restorer (L : Type) where
  store : LogStore L
  files : BlobFiles
  records : List Bytes := []
  blobs : List Bytes := []
  replies : List Reply := []
  bytes : ℕ := 0
  header : Bool := false
  summary : Bool := false
  conflict : Bool := false
  missing : Bool := false
  count : ℕ := 0
  output : List Line := []

namespace Restorer

variable {L : Type} (log : AppendLog L)

/-- Answer the replies in archive order; admissions are matched by position. -/
def answer : List Reply → List Admission → Fallible Failure (Restorer L) Bool
  | [], _ => return false
  | .operation _ :: _, [] => throw ⟨4, "archive admission count mismatch"⟩
  | .operation id :: rest, admission :: admissions => do
    modify fun r => { r with output := r.output ++ [.admission id admission] }
    let later ← answer rest admissions
    return decide (admission = .conflict) || later
  | .blob reference :: rest, admissions => do
    modify fun r => { r with output := r.output ++ [.blob reference] }
    answer rest admissions

/-- `store_blobs` of the writer. -/
def storeBlobs (blobs : List Bytes) : Fallible Failure (Restorer L) Unit :=
  io (zoom Restorer.files (fun files r => { r with files := files }) (BlobFiles.putBatch blobs))

/-- `append_encoded_batch` of the writer. -/
def appendRecords (records : List Bytes) : Fallible Failure (Restorer L) (List Admission) :=
  io (zoom Restorer.store (fun store r => { r with store := store })
    (LogStore.appendEncodedBatch log records))

/-- An empty batch, after one that had conflicts or not. -/
def cleared (conflict : Bool) (r : Restorer L) : Restorer L :=
  { r with
    records := []
    blobs := []
    replies := []
    bytes := 0
    conflict := r.conflict || conflict }

/-- `flush`: blobs are persisted before the records of the batch. -/
def flush : Fallible Failure (Restorer L) Unit := do
  let r ← get
  if r.blobs ≠ [] then storeBlobs r.blobs
  let admissions ← appendRecords log r.records
  let conflict ← answer r.replies admissions
  modify (cleared conflict)

/-- An entry after the header. -/
def enter : Entry → Fallible Failure (Restorer L) Unit
  | .header _ => throw (.input "duplicate archive header")
  | .operation encoded =>
    match Schema.decodeOp encoded with
    | .error error => throw (.input error.text)
    | .ok op =>
      modify fun r =>
        { r with
          bytes := r.bytes + encoded.length
          records := r.records ++ [encoded]
          replies := r.replies ++ [.operation (Schema.id op)]
          count := r.count + 1 }
  | .blob reference bytes =>
    if reference.id ≠ .hash256 (Blake3.hash bytes) ∨ reference.len ≠ bytes.length then
      throw (.input "archive blob address or length mismatch")
    else
      modify fun r =>
        { r with
          bytes := r.bytes + bytes.length
          blobs := r.blobs ++ [bytes]
          replies := r.replies ++ [.blob reference] }
  | .missingBlob _ => modify fun r => { r with missing := true }
  | .summary stats => do
    modify fun r => { r with summary := true }
    let r ← get
    if stats.accepted + stats.quarantined ≠ r.count then
      throw (.input "archive record count does not match its summary")
    if 0 < stats.undecodable ∨ 0 < stats.incompleteTails then
      throw ⟨4, "source archive reports omitted records"⟩

/-- Whether a batch is large enough. -/
def full (r : Restorer L) : Prop := 1024 ≤ r.replies.length ∨ 4 * 1024 * 1024 ≤ r.bytes

instance (r : Restorer L) : Decidable r.full := inferInstanceAs (Decidable (_ ∨ _))

/-- One entry of the archive. -/
def consume (entry : Entry) : Fallible Failure (Restorer L) Unit := do
  let r ← get
  if r.summary then throw (.input "archive contains data after its summary")
  if r.header = false then
    match entry with
    | .header 1 => modify fun r => { r with header := true }
    | _ => throw (.input "expected archive header version 1")
  else
    enter entry
    let r ← get
    if r.full then flush log

/-- `restore`. -/
def restore (entries : List Entry) : Fallible Failure (Restorer L) Unit := do
  forM entries (consume log)
  flush log
  let r ← get
  if r.summary = false then
    throw (.input "archive is incomplete (no summary); retained entries can be safely replayed")
  if r.conflict then throw .conflict
  if r.missing then throw ⟨3, "archive contains unavailable blobs"⟩

end Restorer
end EditChain.Cli
