import EditChain.Store.Log
import EditChain.Sync.Storage

/-!
# Replication over portable adapters

`StoreReplica` replicates through a caller's append log, blob storage and export policy. It keeps
the evidence replayed from the log in memory, drops it before fallible writes, and asks the policy
about every record and every blob that leaves.
-/

namespace EditChain.Sync

open Core Fallible Store
open Std (ExtTreeMap ExtTreeSet)

variable {Op : Type} [Schema Op] [Blake3]

/-! ## Adapters -/

/-- A content address. -/
inductive ContentId where
  | localId (node seq : ℕ)
  | hash128 (hash : BitVec 128)
  | hash256 (hash : Digest)
deriving DecidableEq, Repr

/-- A content address and the length of the content. -/
structure BlobRef where
  id : ContentId
  len : ℕ
deriving DecidableEq, Repr

/-- The outcome of resolving content against a store. -/
inductive BlobResolution where
  | found (bytes : Bytes)
  | missing
  | corrupt
  | unresolvable
deriving DecidableEq, Repr

/-- Verified reads and durable publication of immutable, content-addressed bytes. -/
structure BlobStorage (B : Type) where
  readContent : ContentId → Fallible IoError B BlobResolution
  put : Bytes → Fallible IoError B BlobRef

/-- Caller-owned export authorization for one peer and chain; its decisions depend on the policy's
own state, which the caller may change between calls. -/
structure ExportPolicy (P : Type) where
  /-- `namespace`: both endpoints must agree on it. -/
  namespaceOf : P → String
  /-- Verify this policy's authorization and revision are still current. -/
  check : P → Except IoError Unit
  /-- Whether these exact operation bytes may be offered to this peer. -/
  shareRecord : P → RecordKey → Bytes → Except IoError Bool
  /-- Whether this content may be sent in response to a record's reference. -/
  shareBlob : P → RecordKey → Digest → Except IoError Bool

/-- An immutable caller-selected export scope. -/
structure ExportScope where
  namespaceOf : String
  records : Option (ExtTreeSet RecordKey)
  blobs : Option (ExtTreeSet Digest)

namespace ExportScope

/-- Explicitly share all retained operations and their referenced blobs. -/
def all (space : String) : Except IoError ExportScope :=
  if space.isEmpty ∨ 1024 < space.utf8ByteSize then
    .error (invalid "invalid replication namespace")
  else .ok ⟨space, none, none⟩

/-- Share only exact record variants and referenced content selected here. -/
def selected (space : String) (records : ExtTreeSet RecordKey) (blobs : ExtTreeSet Digest) :
    Except IoError ExportScope := do
  let scope ← all space
  return { scope with records := some records, blobs := some blobs }

/-- `is_none_or(|keys| keys.contains(&key))`. -/
def policy : ExportPolicy ExportScope where
  namespaceOf := namespaceOf
  check _ := .ok ()
  shareRecord scope key _ := .ok (scope.records.all fun keys => keys.contains key)
  shareBlob scope _ hash := .ok (scope.blobs.all fun hashes => hashes.contains hash)

end ExportScope

/-! ## Content references -/

/-- The declared lengths of all references to a hash agree with a length. -/
def matchesLen (references : ExtTreeMap Digest (List ℕ)) (hash : Digest) (length : ℕ) : Bool :=
  references[hash]?.any fun lengths => lengths.all fun expected => expected = length

/-- Content must fit, hash to its address and have the declared length. -/
def validateContent (references : ExtTreeMap Digest (List ℕ)) (hash : Digest) (bytes : Bytes) :
    Except IoError Unit :=
  if maxObjectBytes < bytes.length ∨ Blake3.hash bytes ≠ hash
      ∨ ¬ matchesLen references hash bytes.length then
    .error (invalid "replication blob hash, size or reference mismatch")
  else .ok ()

/-! ## Snapshots of part of the evidence -/

/-- Part of a snapshot, without its receipts. -/
def Snapshot.restrict (snapshot : Snapshot) (keys : List RecordKey) : Snapshot where
  records := snapshot.records.filter fun key _ => decide (key ∈ keys)
  derived key bytes h := by
    rw [ExtTreeMap.getElem?_filter', Option.filter_eq_some_iff] at h
    exact snapshot.derived key bytes h.1

/-- The keys that a predicate permits, asked in order. -/
def permitted (permits : RecordKey → Bytes → Except IoError Bool) :
    List (RecordKey × Bytes) → Except IoError (List RecordKey)
  | [] => .ok []
  | (key, bytes) :: rest => do
    let share ← permits key bytes
    let keys ← permitted permits rest
    return if share then key :: keys else keys

/-- `filtered`: the part of a snapshot that a predicate permits. -/
def Snapshot.filtered (snapshot : Snapshot)
    (permits : RecordKey → Bytes → Except IoError Bool) : Except IoError Snapshot := do
  let keys ← permitted permits snapshot.records.toList
  return snapshot.restrict keys

/-- Insert every record of a log into a snapshot. -/
def insertAll : List Bytes → Fallible IoError Snapshot Unit
  | [] => pure ()
  | bytes :: rest => do
    let _key ← Snapshot.insertEncoded bytes
    insertAll rest

/-! ## The replica -/

/-- The adapters of a replica. -/
structure Adapters (L B P : Type) where
  log : AppendLog L
  blobs : BlobStorage B
  policy : ExportPolicy P

/-- Exact replication using caller-supplied durable storage and export policy. -/
structure StoreReplica (L B P : Type) where
  log : L
  blobs : B
  policy : P
  retained : Option Snapshot := none

namespace StoreReplica

variable {L B P : Type} (adapters : Adapters L B P)

/-- Bind existing storage to the caller's already approved policy. -/
def new (log : L) (blobs : B) (policy : P) : StoreReplica L B P :=
  { log := log, blobs := blobs, policy := policy }

/-- Call the log. -/
def onLog {α : Type} (m : Fallible IoError L α) : Fallible IoError (StoreReplica L B P) α :=
  zoom StoreReplica.log (fun log s => { s with log := log }) m

/-- Call the blob storage. -/
def onBlobs {α : Type} (m : Fallible IoError B α) : Fallible IoError (StoreReplica L B P) α :=
  zoom StoreReplica.blobs (fun blobs s => { s with blobs := blobs }) m

/-- Ask the policy. -/
def ask {α : Type} (question : P → Except IoError α) :
    Fallible IoError (StoreReplica L B P) α := do
  let s ← get
  lift (question s.policy)

/-- `ensure_scope`. -/
def ensureScope : Fallible IoError (StoreReplica L B P) Unit := ask adapters.policy.check

/-- Remember the replayed evidence, or forget it. -/
def retain (snapshot : Option Snapshot) (s : StoreReplica L B P) : StoreReplica L B P :=
  { s with retained := snapshot }

/-- `self.log.sync()`, forgetting the retained evidence when it fails. -/
def fence : Fallible IoError (StoreReplica L B P) Unit :=
  of fun s =>
    match (onLog adapters.log.sync).exec s with
    | (.ok (), t) => (.ok (), t)
    | (.error error, t) => (.error error, t.retain none)

/-- Fence and replay the log. -/
def readRetained : Fallible IoError (StoreReplica L B P) Snapshot := do
  onLog adapters.log.sync
  let (records, _stats) ← onLog adapters.log.visitRecords
  let (result, snapshot) := (insertAll (records.map Record.data)).exec .empty
  lift result
  return snapshot

/-- The evidence in the log, replayed once. -/
def retainedEvidence : Fallible IoError (StoreReplica L B P) Snapshot := do
  let s ← get
  match s.retained with
  | some snapshot => return snapshot
  | none =>
    let snapshot ← readRetained adapters
    modify (retain (some snapshot))
    return snapshot

/-- All retained records, or those that may be exported. -/
def records (exporting : Bool) : Fallible IoError (StoreReplica L B P) Snapshot := do
  ensureScope adapters
  fence adapters
  let snapshot ← retainedEvidence adapters
  ask fun policy => snapshot.filtered fun key bytes =>
    if exporting then adapters.policy.shareRecord policy key bytes else .ok true

/-- The content references of a record of a snapshot. -/
def references [ContentSchema Op] (snapshot : Snapshot) (key : RecordKey) (exporting : Bool) :
    Fallible IoError (StoreReplica L B P) (ExtTreeMap Digest (List ℕ)) := do
  ensureScope adapters
  match snapshot.record key with
  | none => throw (invalid "record outside replication snapshot")
  | some encoded =>
    let shared ← ask fun policy =>
      if exporting then adapters.policy.shareRecord policy key encoded else .ok true
    if !shared then throw (invalid "record outside export scope")
    match Schema.decodeOp encoded with
    | .error error => throw error.other
    | .ok op => return ContentSchema.references op

/-- Referenced content, verified. -/
def content (references : ExtTreeMap Digest (List ℕ)) (hash : Digest) :
    Fallible IoError (StoreReplica L B P) (Option Bytes) := do
  if ¬ references.contains hash then throw (invalid "blob is not referenced by this record")
  match ← onBlobs (adapters.blobs.readContent (.hash256 hash)) with
  | .found bytes =>
    lift (validateContent references hash bytes)
    return some bytes
  | .missing => return none
  | .corrupt | .unresolvable => throw (invalid "invalid stored replication blob")

/-- Publish content and check the address it was given. -/
def publishBlob (hash : Digest) (bytes : Bytes) : Fallible IoError (StoreReplica L B P) Unit := do
  if 2 ^ 32 ≤ bytes.length then throw ⟨.other, "out of range integral type conversion attempted"⟩
  let published ← onBlobs (adapters.blobs.put bytes)
  if published ≠ ⟨.hash256 hash, bytes.length⟩ then
    throw (invalid "blob adapter returned a different content identity")

/-- The variables of a batch: the evidence with the new records, what to append, and whether some
record was already retained. -/
structure Ingest where
  known : Snapshot
  pending : List Record := []
  duplicate : Bool := false

/-- Look at the records of a batch in order. -/
def classify : List (RecordKey × Bytes) → Fallible IoError Ingest Unit
  | [] => pure ()
  | (key, bytes) :: rest => do
    let batch : Ingest ← get
    match batch.known.record key with
    | some previous =>
      if previous ≠ bytes then throw (invalid "record digest collision")
      set { batch with duplicate := true }
      classify rest
    | none =>
      let (result, known) := (Snapshot.insertEncoded bytes).exec batch.known
      let _key ← lift result
      set { batch with known := known, pending := batch.pending ++ [Record.mk 0 bytes] }
      classify rest

/-- Fence what was already retained, append what is new, and keep the evidence. -/
def commit (batch : Ingest) : Fallible IoError (StoreReplica L B P) Unit := do
  if batch.duplicate then onLog adapters.log.sync
  onLog (adapters.log.appendRecords batch.pending)
  modify (retain (some batch.known))

/-- Validate, classify and durably append a batch. -/
def append (batch : List (RecordKey × Bytes)) : Fallible IoError (StoreReplica L B P) Unit := do
  lift (validateRecords batch)
  ensureScope adapters
  let known ← retainedEvidence adapters
  -- a partial commit must be rediscovered and fenced before a later receipt can acknowledge it
  modify (retain none)
  let (result, ingest) := (classify batch).exec { known := known }
  lift result
  commit adapters ingest

/-- `ingest_records`. -/
def ingestRecords (batch : List (RecordKey × Bytes)) :
    Fallible IoError (StoreReplica L B P × Snapshot) Unit := do
  zoom Prod.fst (fun s t => (s, t.2)) (append adapters batch)
  zoom Prod.snd (fun snapshot t => (t.1, snapshot)) (insertAll (batch.map Prod.snd))

/-- `read_blob`. -/
def readBlob [ContentSchema Op] (snapshot : Snapshot) (key : RecordKey) (hash : Digest) :
    Fallible IoError (StoreReplica L B P) (Option Bytes) := do
  let references ← references adapters snapshot key true
  if !(← ask fun policy => adapters.policy.shareBlob policy key hash) then return none
  else content adapters references hash

/-- `ingest_blob`. -/
def ingestBlob [ContentSchema Op] (key : RecordKey) (hash : Digest) (bytes : Bytes) :
    Fallible IoError (StoreReplica L B P) Unit := do
  let snapshot ← retainedEvidence adapters
  let references ← references adapters snapshot key false
  lift (validateContent references hash bytes)
  publishBlob adapters hash bytes

/-- `confirm_blob`. -/
def confirmBlob [ContentSchema Op] (snapshot : Snapshot) (key : RecordKey) (hash : Digest) :
    Fallible IoError (StoreReplica L B P) Bool := do
  let references ← references adapters snapshot key false
  match ← content adapters references hash with
  | none => return false
  | some bytes =>
    publishBlob adapters hash bytes
    return true

/-- `blob_hashes`. -/
def blobHashes [ContentSchema Op] (snapshot : Snapshot) (key : RecordKey) :
    Fallible IoError (StoreReplica L B P) (ExtTreeSet Digest) := do
  let references ← references adapters snapshot key false
  return ExtTreeSet.ofList references.keys

/-- A `StoreReplica` as the storage of a session. -/
@[reducible] def storage [ContentSchema Op] : ReplicationStorage (StoreReplica L B P) where
  namespaceOf s := adapters.policy.namespaceOf s.policy
  ensureScope := ensureScope adapters
  snapshot := records adapters true
  receivingSnapshot := records adapters false
  ingestRecords := ingestRecords adapters
  blobHashes := blobHashes adapters
  readBlob := readBlob adapters
  ingestBlob := ingestBlob adapters
  confirmBlob := confirmBlob adapters

end StoreReplica
end EditChain.Sync
