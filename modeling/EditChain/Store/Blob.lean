import EditChain.Activity.Model
import EditChain.Lib.Process

/-!
# Durable publication of blobs

A blob store keeps one file for each content address. New files are staged under temporary names,
synchronized and linked to their final names, alone or in cohorts; an existing file is compared and
synchronized before it is acknowledged. Every step of the file system is a request that may fail,
before or after it has taken effect.

Temporary names are never addressed, so that their creation and the bytes written to them are one
step, and their removal is left out. So are the ancestors of the directory, beside the steps in
which they are synchronized.
-/

namespace EditChain.Store

open Activity (BlobRef ContentId)

/-! ## The file system -/

/-- A file: its bytes, whether the store has written it, and whether its contents were synced. -/
structure BlobFile where
  bytes : Bytes
  staged : Bool
  synced : Bool
deriving DecidableEq, Repr

/-- A blob directory: all files in order of their creation, the final names, and whether the entry
of a name was synced. -/
structure BlobDisk where
  files : List BlobFile
  names : Digest → Option ℕ
  durable : Digest → Bool
  named : ∀ name inode, names name = some inode → inode < files.length

namespace BlobDisk

/-- The file at a final name. -/
def file (disk : BlobDisk) (name : Digest) : Option BlobFile :=
  (disk.names name).bind fun inode => disk.files[inode]?

/-- An empty directory. -/
def empty : BlobDisk := ⟨[], fun _ => none, fun _ => false, nofun⟩

/-- A disk with one more file. -/
def add (disk : BlobDisk) (file : BlobFile) : BlobDisk where
  files := disk.files ++ [file]
  names := disk.names
  durable := disk.durable
  named name inode h := by
    rw [List.length_append]
    exact Nat.lt_add_right _ (disk.named name inode h)

/-- The contents of a file are synced. -/
def sync (disk : BlobDisk) (inode : ℕ) : BlobDisk where
  files := disk.files.modify inode fun file => { file with synced := true }
  names := disk.names
  durable := disk.durable
  named name inode h := by
    rw [List.length_modify]
    exact disk.named name inode h

/-- All entries of the directory are synced. -/
def syncEntries (disk : BlobDisk) : BlobDisk :=
  { disk with durable := fun name => disk.durable name || (disk.names name).isSome }

/-- A file gets a name that is free. -/
def link (disk : BlobDisk) (inode : ℕ) (name : Digest) : BlobDisk :=
  if h : disk.names name = none ∧ inode < disk.files.length then {
    files := disk.files
    names := fun other => if other = name then some inode else disk.names other
    durable := disk.durable
    named := by
      intro other found hfound
      split at hfound
      · cases hfound
        exact h.2
      · exact disk.named other found hfound }
  else disk

end BlobDisk

/-- One step of the file system. -/
inductive FileRequest where
  /-- `fs::create_dir_all`. -/
  | makeDir
  /-- `fs::canonicalize`. -/
  | canonicalize
  /-- Synchronize the blob directory. -/
  | syncDir
  /-- Synchronize a directory above it. -/
  | syncAncestor (depth : ℕ)
  /-- Open the file at a final name, if there is one. -/
  | openName (name : Digest)
  /-- The length in the metadata of an open file. -/
  | length (inode : ℕ)
  /-- `read_exact` at an offset. -/
  | readExact (inode offset count : ℕ)
  /-- Whether a read at an offset is at the end of the file. -/
  | atEnd (inode offset : ℕ)
  /-- Synchronize the contents of a file. -/
  | syncFile (inode : ℕ)
  /-- Create a temporary file and write its bytes. -/
  | prepare (bytes : Bytes)
  /-- Start a worker. -/
  | spawn
  /-- Link a temporary file to a final name, which may exist already. -/
  | hardLink (inode : ℕ) (name : Digest)
deriving DecidableEq

namespace FileRequest

/-- What a request returns. -/
abbrev Reply : FileRequest → Type
  | .openName _ => Option ℕ
  | .length _ => ℕ
  | .readExact _ _ _ => Bytes
  | .atEnd _ _ => Bool
  | .prepare _ => ℕ
  | .hardLink _ _ => Bool
  | _ => Unit

/-- `ErrorKind::UnexpectedEof`. -/
def unexpectedEof : IoError := ⟨.unexpectedEof, "failed to fill whole buffer"⟩

/-- The bytes of a file. -/
def bytesOf (disk : BlobDisk) (inode : ℕ) : Bytes := (disk.files[inode]?.map BlobFile.bytes).getD []

/-- The answer to a request that does not fail. -/
def answer (disk : BlobDisk) : (request : FileRequest) → Except IoError (Reply request)
  | .makeDir | .canonicalize | .syncDir | .syncAncestor _ | .syncFile _ | .spawn => .ok ()
  | .openName name => .ok (disk.names name)
  | .length inode => .ok (bytesOf disk inode).length
  | .readExact inode offset count =>
    if ((bytesOf disk inode).drop offset).length < count then .error unexpectedEof
    else .ok (((bytesOf disk inode).drop offset).take count)
  | .atEnd inode offset => .ok (decide ((bytesOf disk inode).drop offset = []))
  | .prepare _ => .ok disk.files.length
  | .hardLink _ name => .ok (disk.names name).isNone

/-- The disk after a request has taken effect. -/
def effect (disk : BlobDisk) : FileRequest → BlobDisk
  | .syncDir => disk.syncEntries
  | .syncFile inode => disk.sync inode
  | .prepare bytes => disk.add ⟨bytes, true, false⟩
  | .hardLink inode name => disk.link inode name
  | _ => disk

end FileRequest

/-- How a request goes. -/
inductive FileOutcome where
  | succeeds
  /-- It fails and has no effect. -/
  | fails (error : IoError)
  /-- It fails after it has taken effect. -/
  | failsLate (error : IoError)
  /-- It fails in the middle of a write. -/
  | failsPartly (error : IoError) (written : ℕ)

/-- A request with an outcome. -/
def FileRequest.run (request : FileRequest) (disk : BlobDisk) :
    FileOutcome → Except IoError request.Reply × BlobDisk
  | .succeeds => (request.answer disk, request.effect disk)
  | .fails error => (.error error, disk)
  | .failsLate error => (.error error, request.effect disk)
  | .failsPartly error written =>
    (.error error, match request with
      | .prepare bytes => disk.add ⟨bytes.take written, true, false⟩
      | _ => disk)

/-- Code that runs on the file system. -/
abbrev FileProcess (α : Type) := Process FileRequest FileRequest.Reply IoError α

/-! ## Directories -/

section

open Process (attempt)

/-- Make one step of the file system. -/
def ask (request : FileRequest) : FileProcess request.Reply := Process.perform request

/-- A store: the number of directories above its own. -/
structure BlobStore where
  ancestors : ℕ

namespace BlobStore

/-- `sync_directory_tree` on the blob directory. -/
def syncDirectoryTree (store : BlobStore) : FileProcess Unit := do
  ask .canonicalize
  ask .syncDir
  forM (List.range store.ancestors) fun depth => ask (.syncAncestor depth)

/-- `create_dir_all` on the blob directory. -/
def createDirAll (store : BlobStore) : FileProcess Unit := do
  ask .makeDir
  store.syncDirectoryTree

end BlobStore

/-! ## Existing files -/

/-- The chunks of a list. -/
def chunks {α : Type} (size : ℕ) (l : List α) : List (List α) :=
  if _h : l = [] ∨ size = 0 then []
  else l.take size :: chunks size (l.drop size)
termination_by l.length
decreasing_by
  obtain ⟨hl, hsize⟩ := not_or.mp _h
  have hpos := List.length_pos_iff.mpr hl
  rw [List.length_drop]
  omega

/-- Compare the rest of a file with the chunks that are expected. -/
def compareChunks (inode offset : ℕ) : List Bytes → FileProcess Bool
  | [] => ask (.atEnd inode offset)
  | chunk :: rest => do
    let target ← ask (.readExact inode offset chunk.length)
    if target ≠ chunk then return false
    else compareChunks inode (offset + chunk.length) rest

/-- `same_blob_bytes`. -/
def sameBlobBytes (inode : ℕ) (expected : Bytes) : FileProcess Bool := do
  let length ← ask (.length inode)
  if length ≠ expected.length then return false
  else compareChunks inode 0 (chunks 8192 expected)

/-- `verify_existing`, whose error also displays the path. -/
def verifyExisting (name : Digest) (data : Bytes) : FileProcess Bool := do
  match ← ask (.openName name) with
  | none => return false
  | some inode =>
    let same ← sameBlobBytes inode data
    if !same then .throw (invalid "existing blob does not match its content address")
    else
      ask (.syncFile inode)
      ask .syncDir
      return true

/-! ## Publication -/

/-- `publish_new`. -/
def BlobStore.publishNew (store : BlobStore) (name : Digest) (data : Bytes) : FileProcess Bool := do
  let inode ← ask (.prepare data)
  ask (.syncFile inode)
  let published ← ask (.hardLink inode name)
  if published then
    store.syncDirectoryTree
    return true
  else return false

/-- A staged file that waits for its publication. -/
structure PendingBlob where
  inode : ℕ
  name : Digest
  bytes : Bytes
deriving DecidableEq, Repr

/-- Stage what is not there yet, where `unique` was seen before. -/
def stageBatch : List (Digest × Bytes) → List PendingBlob → List (Digest × Bytes) →
    FileProcess (List PendingBlob)
  | _, pending, [] => return pending
  | unique, pending, (name, bytes) :: rest =>
    match unique.lookup name with
    | some previous =>
      if previous ≠ bytes then
        .throw (invalid "batch contains different bytes for one immutable destination")
      else stageBatch unique pending rest
    | none => do
      let existing ← verifyExisting name bytes
      if existing then stageBatch ((name, bytes) :: unique) pending rest
      else
        let inode ← ask (.prepare bytes)
        stageBatch ((name, bytes) :: unique) (pending ++ [⟨inode, name, bytes⟩]) rest

/-- Return a value or fail. -/
def settle : Except IoError Unit → FileProcess Unit
  | .ok () => return ()
  | .error error => .throw error

/-- Start the workers: each synchronizes its group up to the first failure. -/
def runWorkers : List (List PendingBlob) → FileProcess (List (Except IoError Unit))
  | [] => return []
  | group :: rest => do
    ask .spawn
    let result ← attempt (forM group fun blob => ask (.syncFile blob.inode))
    let results ← runWorkers rest
    return result :: results

/-- Synchronize all staged files, and report the first failure. -/
def syncBatch (pending : List PendingBlob) : FileProcess Unit := do
  let size := max ((pending.length + 7) / 8) 1
  let results ← runWorkers (chunks size pending)
  forM results settle

/-- Link the staged files, and say whether any name is new. -/
def linkBatch : Bool → List PendingBlob → FileProcess Bool
  | linked, [] => return linked
  | linked, blob :: rest => do
    let published ← ask (.hardLink blob.inode blob.name)
    if published then linkBatch true rest
    else
      let existing ← verifyExisting blob.name blob.bytes
      if !existing then .throw ⟨.notFound, "concurrent blob publication disappeared"⟩
      else linkBatch linked rest

/-- `publish_batch`. -/
def BlobStore.publishBatch (store : BlobStore) (entries : List (Digest × Bytes)) :
    FileProcess Unit := do
  let pending ← stageBatch [] [] entries
  syncBatch pending
  let linked ← linkBatch false pending
  if linked then store.syncDirectoryTree else return ()

/-! ## The store -/

variable [Blake3]

namespace BlobStore

/-- `write`. -/
def write (store : BlobStore) (data : Bytes) : FileProcess Unit := do
  store.createDirAll
  let name := Blake3.hash data
  let existing ← verifyExisting name data
  if existing then return ()
  else
    let published ← store.publishNew name data
    if published then return ()
    else
      let winner ← verifyExisting name data
      if winner then return () else .throw ⟨.notFound, "published blob disappeared"⟩

/-- `write_batch`. -/
def writeBatch (store : BlobStore) (payloads : List Bytes) : FileProcess Unit :=
  if payloads = [] then return ()
  else do
    store.createDirAll
    forM (chunks 64 payloads) fun cohort =>
      store.publishBatch (cohort.map fun bytes => (Blake3.hash bytes, bytes))

/-- The reference to some bytes, when their length can be recorded. -/
def reference (bytes : Bytes) : Except IoError BlobRef :=
  if 2 ^ 32 ≤ bytes.length then
    .error ⟨.invalidInput, "out of range integral type conversion attempted"⟩
  else .ok ⟨.hash256 (Blake3.hash bytes), UInt32.ofNat bytes.length⟩

/-- `put`. -/
def put (store : BlobStore) (bytes : Bytes) : FileProcess BlobRef :=
  match reference bytes with
  | .error error => .throw error
  | .ok reference => do
    store.write bytes
    return reference

/-- `put_batch`. -/
def putBatch (store : BlobStore) (payloads : List Bytes) : FileProcess (List BlobRef) :=
  match payloads.mapM reference with
  | .error error => .throw error
  | .ok references => do
    store.writeBatch payloads
    return references

/-- The outcome of resolving a reference. -/
inductive BlobResolution where
  | found (bytes : Bytes)
  | missing
  | corrupt
  | unresolvable
deriving DecidableEq, Repr

/-- `resolve` with what the read of the file has given. -/
def resolve (get : Digest → Except IoError (Option Bytes)) (blob : BlobRef) : BlobResolution :=
  match blob.id with
  | .hash256 hash =>
    match get hash with
    | .ok (some bytes) =>
      if blob.len.toNat = bytes.length ∧ Blake3.hash bytes = hash then .found bytes else .corrupt
    | .error _ => .corrupt
    | .ok none => .missing
  | _ => .unresolvable

end BlobStore

/-- A read that does not fail. -/
def BlobDisk.get (disk : BlobDisk) (hash : Digest) : Except IoError (Option Bytes) :=
  .ok ((disk.file hash).map BlobFile.bytes)

/-! ## Writers that share the directory -/

/-- A call of a store. -/
inductive BlobCall where
  | write (data : Bytes)
  | put (bytes : Bytes)
  | putBatch (payloads : List Bytes)

/-- The payloads of a call. -/
def BlobCall.payloads : BlobCall → List Bytes
  | .write data => [data]
  | .put bytes => [bytes]
  | .putBatch payloads => payloads

/-- The code of a call, with the references that it returns. -/
def BlobCall.code (store : BlobStore) : BlobCall → FileProcess (List BlobRef)
  | .write data => do
    store.write data
    return []
  | .put bytes => do
    let reference ← store.put bytes
    return [reference]
  | .putBatch payloads => store.putBatch payloads

/-- The directory and all calls that were started on it. -/
structure BlobWorld where
  disk : BlobDisk := .empty
  calls : List (BlobCall × FileProcess (List BlobRef)) := []

/-- What happens next. -/
inductive BlobEvent where
  /-- A handle makes a call. -/
  | start (store : BlobStore) (call : BlobCall)
  /-- One step of a call. -/
  | step (index : ℕ) (outcome : FileOutcome)
  /-- Another writer publishes a file at a free name. -/
  | publish (name : Digest) (bytes : Bytes) (synced : Bool)
  /-- Another writer synchronizes a file or the directory. -/
  | syncFile (inode : ℕ)
  | syncDir

namespace BlobWorld

/-- One event. -/
def next (world : BlobWorld) : BlobEvent → BlobWorld
  | .start store call => { world with calls := world.calls ++ [(call, call.code store)] }
  | .step index outcome =>
    match world.calls[index]? with
    | some (call, .call request resume) =>
      let (reply, disk) := request.run world.disk outcome
      ⟨disk, world.calls.set index (call, resume reply)⟩
    | _ => world
  | .publish name bytes synced =>
    { world with
      disk := (world.disk.add ⟨bytes, false, synced⟩).link world.disk.files.length name }
  | .syncFile inode => { world with disk := world.disk.sync inode }
  | .syncDir => { world with disk := world.disk.syncEntries }

/-- A sequence of events on an empty directory. -/
def run (events : List BlobEvent) : BlobWorld := events.foldl next {}

end BlobWorld

end

end EditChain.Store
