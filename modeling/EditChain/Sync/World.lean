import EditChain.Sync.Replica
import EditChain.Sync.Transfer

/-!
# A device

The files of a workspace and every replica that was opened on it, in whatever order. Between calls
the device captures history, writes content and meets whatever the file system does; a process that
stops is a call that fails, at any of its steps, on a replica that is never used again.
-/

namespace EditChain.Sync

open Core Fallible Store
open Std (ExtTreeSet)

variable {Op : Type} [Schema Op] [Blake3] [Checksum] [ScopeJson] [ContentSchema Op]

/-- A call of a replica. -/
inductive Request where
  | snapshot
  | receivingSnapshot
  | ingestRecords (records : List (RecordKey × Bytes))
  | ingestInto (records : List (RecordKey × Bytes)) (snapshot : Snapshot)
  | blobHashes (snapshot : Snapshot) (key : RecordKey)
  | readBlob (snapshot : Snapshot) (key : RecordKey) (hash : Digest)
  | blobChunk (snapshot : Snapshot) (key : RecordKey) (hash : Digest) (offset : ℕ)
  | ingestBlob (key : RecordKey) (hash : Digest) (bytes : Bytes)
  | confirmBlob (snapshot : Snapshot) (key : RecordKey) (hash : Digest)
  | setSharingScope (backfill : Bool)

/-- What a call returns. -/
inductive Answer where
  | snapshot (snapshot : Snapshot)
  | keys (keys : List RecordKey)
  | hashes (hashes : ExtTreeSet Digest)
  | content (bytes : Option Bytes)
  | chunk (chunk : Option (ℕ × Bytes))
  | confirmed (available : Bool)
  | done
  | scope (scope : SharingScope)

/-- `blob_chunk`. -/
def Replica.blobChunk (snapshot : Snapshot) (key : RecordKey) (hash : Digest) (offset : ℕ) :
    Fallible IoError Workspace (Option (ℕ × Bytes)) := do
  match ← readBlob snapshot key hash with
  | none => return none
  | some bytes =>
    if 2 ^ 32 ≤ bytes.length then throw conversionError
    if bytes.length < offset then throw (invalid "blob offset exceeds length")
    return some (bytes.length, (bytes.drop offset).take chunkBytes)

/-- The code of a call. -/
def Request.code : Request → Fallible IoError Workspace Answer
  | .snapshot => do return .snapshot (← Replica.snapshotFor false)
  | .receivingSnapshot => do return .snapshot (← Replica.snapshotFor true)
  | .ingestRecords records => do return .keys (← Replica.ingestRecords records)
  | .ingestInto records frozen => do
    let scope ← Replica.ingestInto records (some frozen)
    return .snapshot (Replica.receivedInto records scope frozen)
  | .blobHashes frozen key => do return .hashes (← Replica.blobHashes frozen key)
  | .readBlob frozen key hash => do return .content (← Replica.readBlob frozen key hash)
  | .blobChunk frozen key hash offset => do
    return .chunk (← Replica.blobChunk frozen key hash offset)
  | .ingestBlob key hash bytes => do
    Replica.ingestBlob key hash bytes
    return .done
  | .confirmBlob frozen key hash => do
    return .confirmed (← ReplicationStorage.confirmBlob frozen key hash)
  | .setSharingScope backfill => do return .scope (← Replica.setSharingScope backfill)

/-- The snapshot that a call is made with. -/
def Request.given : Request → Option Snapshot
  | .ingestInto _ frozen | .blobHashes frozen _ | .readBlob frozen _ _
  | .blobChunk frozen _ _ _ | .confirmBlob frozen _ _ => some frozen
  | _ => none

/-- The records that a call brings from a peer. -/
def Request.supplied : Request → List (RecordKey × Bytes)
  | .ingestRecords records | .ingestInto records _ => records
  | _ => []

/-- The call selects a scope. -/
def Request.selects : Request → Option Bool
  | .setSharingScope backfill => some backfill
  | _ => none

/-- The files of a device and the replicas that were opened on them. -/
structure World where
  root : Root
  replicas : List Replica := []

/-- What can happen to a device. -/
inductive Happening where
  /-- The file system decides what it will do. -/
  | script (io : Io)
  /-- The device writes to its own log, until it closes the writer or stops. -/
  | capture (calls : List Store.Call)
  /-- The device writes content of its own. -/
  | write (bytes : Bytes)
  | openSpace (space : String) (backfill : Bool)
  | call (replica : ℕ) (request : Request)

/-- The happening selects a scope. -/
def Happening.selects : Happening → Option Bool
  | .call _ request => request.selects
  | _ => none

namespace World

/-- A device that was never used. -/
def empty : World := { root := .empty }

/-- The chain after a writer has come and gone. -/
def captured (calls : List Store.Call) (chain : Directory) : Directory :=
  match Chain.run calls ⟨chain, none⟩ with
  | some (_, c) => { c.directory with lock := .free }
  | none => chain

/-- The device after something has happened to it. -/
def next (w : World) : Happening → World
  | .script io => { w with root := { w.root with io := io } }
  | .capture calls => { w with root := { w.root with chain := captured calls w.root.chain } }
  | .write bytes => { w with root := ((Root.writeBlob bytes).exec w.root).2 }
  | .openSpace space backfill =>
    match (Replica.openSpace space backfill).exec w.root with
    | (.ok replica, root) => ⟨root, w.replicas ++ [replica]⟩
    | (.error _, root) => { w with root := root }
  | .call i request =>
    match w.replicas[i]? with
    | none => w
    | some replica =>
      let run := request.code.exec ⟨w.root, replica⟩
      ⟨run.2.root, w.replicas.set i run.2.replica⟩

/-- What a call on a device returns. -/
def answer (w : World) (i : ℕ) (request : Request) : Option (Except IoError Answer) :=
  w.replicas[i]?.map fun replica => (request.code.exec ⟨w.root, replica⟩).1

/-- The device after all that has happened to it. -/
def run (happenings : List Happening) : World := happenings.foldl next empty

end World
end EditChain.Sync
