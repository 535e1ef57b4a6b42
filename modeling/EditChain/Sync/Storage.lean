import EditChain.Lib.Fallible
import EditChain.Sync.Evidence

/-!
# The storage boundary of replication

Record keys derived from encoded operations, snapshots of retained evidence, and the interface
through which a session reaches its storage. The methods of a storage are stateful code that may
fail, so that whatever decides whether a call fails is part of the storage's state.
-/

namespace EditChain.Sync

open Core Fallible
open Std (ExtTreeMap ExtTreeSet)

variable {Op : Type} [Schema Op] [Blake3]

/-- Largest operation or blob accepted by the first replication protocol. -/
def maxObjectBytes : ℕ := 64 * 1024 * 1024

/-- Largest data chunk carried by a peer message. -/
def chunkBytes : ℕ := 64 * 1024

/-- Maximum record identities in one inventory page. -/
def inventoryPage : ℕ := 128

/-- Parent-ordered inventories with stable totals and confirmed page checks. -/
def peerVersion : ℕ := 5

/-- `u64::MAX`, also the largest `usize`. -/
def u64Max : ℕ := 2 ^ 64 - 1

/-- `saturating_add` on 64-bit counters. -/
def saturatingAdd (a b : ℕ) : ℕ := min (a + b) u64Max

/-- `content::references`: the hashes an operation refers to, each with its declared lengths. -/
class ContentSchema (Op : outParam Type) where
  references : Op → ExtTreeMap Digest (List ℕ)

/-- Validate an encoded operation and derive its evidence identity. -/
def RecordKey.fromEncoded (bytes : Bytes) : Except IoError RecordKey := do
  if maxObjectBytes < bytes.length then throw (invalid "operation exceeds replication limit")
  let op ← (Schema.decodeOp bytes).mapError PostcardError.other
  return ⟨Schema.id op, Blake3.hash bytes⟩

lemma decodeOp_of_fromEncoded {bytes : Bytes} {key : RecordKey}
    (h : RecordKey.fromEncoded bytes = .ok key) : ∃ op, Schema.decodeOp bytes = .ok op := by
  unfold RecordKey.fromEncoded at h
  obtain ⟨-, h⟩ := guard_eq_ok.mp h
  cases hop : Schema.decodeOp bytes with
  | ok op => exact ⟨op, rfl⟩
  | error error =>
    rw [hop] at h
    cases h

/-! ## Snapshots -/

/-- Stable inventory and exact bytes for one bounded reconciliation round. Every way to build a
snapshot keys the bytes by what they derive. -/
structure Snapshot where
  records : ExtTreeMap RecordKey Bytes := ∅
  received : ExtTreeSet RecordKey := ∅
  receivedBlobs : ExtTreeSet Digest := ∅
  scopeRevision : ℕ := 0
  derived : ∀ key bytes, records[key]? = some bytes → RecordKey.fromEncoded bytes = .ok key

namespace Snapshot

/-- `Snapshot::default`. -/
def empty : Snapshot where
  derived key bytes h := by simp at h

/-- Inspect exact bytes without re-encoding an operation. -/
def record (snapshot : Snapshot) (key : RecordKey) : Option Bytes := snapshot.records[key]?

/-- Whether this round includes an exact variant. -/
def contains (snapshot : Snapshot) (key : RecordKey) : Bool := snapshot.records.contains key

/-- Number of retained, shareable variants, including conflicts. -/
def len (snapshot : Snapshot) : ℕ := snapshot.records.size

/-- Retain bytes under the key they derive. -/
def insert (snapshot : Snapshot) (key : RecordKey) (encoded : Bytes)
    (h : RecordKey.fromEncoded encoded = .ok key) : Snapshot where
  records := snapshot.records.insert key encoded
  received := snapshot.received
  receivedBlobs := snapshot.receivedBlobs
  scopeRevision := snapshot.scopeRevision
  derived k bytes hk := by
    rw [ExtTreeMap.getElem?_insert] at hk
    split at hk
    · rename_i heq
      rw [← Std.LawfulEqOrd.eq_of_compare heq, ← Option.some.inj hk]
      exact h
    · exact snapshot.derived k bytes hk

/-- Add exact, already durable bytes when implementing a storage adapter. -/
def insertEncoded (encoded : Bytes) : Fallible IoError Snapshot RecordKey := do
  match h : RecordKey.fromEncoded encoded with
  | .error error => throw error
  | .ok key =>
    let snapshot ← get
    if (snapshot.record key).any (fun previous => decide (previous ≠ encoded)) then
      throw (invalid "record digest collision")
    set (snapshot.insert key encoded h)
    return key

/-- Remember a blob received in this round. -/
def receivedBlob (hash : Digest) (snapshot : Snapshot) : Snapshot :=
  { snapshot with receivedBlobs := snapshot.receivedBlobs.insert hash }

@[simp] lemma receivedBlob_record (hash : Digest) (snapshot : Snapshot) :
    (snapshot.receivedBlob hash).record = snapshot.record := rfl

@[simp] lemma receivedBlob_contains (hash : Digest) (snapshot : Snapshot) :
    (snapshot.receivedBlob hash).contains = snapshot.contains := rfl

@[simp] lemma empty_contains (key : RecordKey) : (empty : Snapshot).contains key = false := by
  simp [contains, empty]

lemma contains_iff {snapshot : Snapshot} {key : RecordKey} :
    snapshot.contains key = true ↔ ∃ bytes, snapshot.record key = some bytes := by
  unfold contains record
  rw [ExtTreeMap.contains_eq_isSome_getElem?, Option.isSome_iff_exists]

end Snapshot

/-! ## The storage interface -/

/-- Storage and export authority for one authorized replication session. -/
class ReplicationStorage {Op : outParam Type} [Schema Op] [Blake3] (R : Type) where
  /-- `namespace`: the opaque caller-selected namespace used in negotiation. -/
  namespaceOf : R → String
  /-- Check that this session's authorization is still valid. -/
  ensureScope : Fallible IoError R Unit
  /-- Freeze all durably retained variants authorized for export. -/
  snapshot : Fallible IoError R Snapshot
  /-- Freeze durable local evidence used to avoid duplicate downloads. -/
  receivingSnapshot : Fallible IoError R Snapshot
  /-- Validate and durably retain a complete batch, then update the snapshot. -/
  ingestRecords : List (RecordKey × Bytes) → Fallible IoError (R × Snapshot) Unit
  /-- Enumerate references, including children of available structured blobs. -/
  blobHashes : Snapshot → RecordKey → Fallible IoError R (ExtTreeSet Digest)
  /-- Read verified, explicitly authorized content for an offered record. -/
  readBlob : Snapshot → RecordKey → Digest → Fallible IoError R (Option Bytes)
  /-- Verify and durably publish content referenced by retained evidence. -/
  ingestBlob : RecordKey → Digest → Bytes → Fallible IoError R Unit
  /-- Confirm existing content is durable before skipping its download. -/
  confirmBlob : Snapshot → RecordKey → Digest → Fallible IoError R Bool :=
    fun snapshot key hash => do
      match ← readBlob snapshot key hash with
      | none => return false
      | some bytes =>
        ingestBlob key hash bytes
        return true

/-- The bytes of an operation refer to a content hash. -/
def References [ContentSchema Op] (bytes : Bytes) (hash : Digest) : Prop :=
  ∃ op, Schema.decodeOp bytes = .ok op ∧ hash ∈ ContentSchema.references op

/-- What a storage has done when it reports success: a batch is in the snapshot, references are
those of the retained bytes, and published content hashes to its address. -/
class LawfulStorage (R : Type) [ContentSchema Op] [ReplicationStorage R] : Prop where
  ingestRecords_contains : ∀ records (s t : R) (snapshot snapshot' : Snapshot),
    (ReplicationStorage.ingestRecords records).exec (s, snapshot) = (.ok (), t, snapshot') →
      ∀ key, snapshot.contains key ∨ key ∈ records.map Prod.fst → snapshot'.contains key
  ingestRecords_record : ∀ records (s t : R) (snapshot snapshot' : Snapshot),
    (ReplicationStorage.ingestRecords records).exec (s, snapshot) = (.ok (), t, snapshot') →
      ∀ key bytes, snapshot'.record key = some bytes →
        snapshot.record key = some bytes ∨ (key, bytes) ∈ records
  blobHashes_eq : ∀ (snapshot : Snapshot) key (s t : R) hashes,
    (ReplicationStorage.blobHashes snapshot key).exec s = (.ok hashes, t) →
      ∃ bytes, snapshot.record key = some bytes ∧ ∀ hash, hash ∈ hashes ↔ References bytes hash
  ingestBlob_hash : ∀ key hash bytes (s t : R),
    (ReplicationStorage.ingestBlob key hash bytes).exec s = (.ok (), t) →
      Blake3.hash bytes = hash

/-- The checks of a batch that every implementation makes before it writes. -/
def validateRecords (records : List (RecordKey × Bytes)) : Except IoError Unit := do
  let total := records.foldl (fun size record => saturatingAdd size record.2.length) 0
  if inventoryPage < records.length ∨ maxObjectBytes < total then
    throw (invalid "record batch exceeds limit")
  records.forM fun (key, bytes) => do
    if (← RecordKey.fromEncoded bytes) ≠ key then
      throw (invalid "record identity or digest mismatch")

end EditChain.Sync
