import EditChain.Core.Admission
import EditChain.Store.Directory
import EditChain.Store.Log

/-!
# Reading a whole chain

`CanonicalChain` retains all evidence of a chain, the accepted operations with the location of
their first record, and the counts of what was read.
-/

namespace EditChain.Store

open Core Fallible
open Std (ExtTreeMap)

variable {Op : Type} [Schema Op] [Checksum]

/-- Canonicalization and integrity outcomes for a chain read. -/
structure ChainReadStats where
  /-- Successfully decoded record occurrences, including exact replays. -/
  records : ℕ := 0
  /-- Unconflicted operation identities accepted into the view. -/
  accepted : ℕ := 0
  /-- Repeated occurrences of already retained exact bytes. -/
  duplicates : ℕ := 0
  /-- Distinct record variants belonging to conflicted identities, including the first. -/
  quarantined : ℕ := 0
  /-- Complete records that cannot be decoded. -/
  undecodable : ℕ := 0
  /-- Segments ending with an incomplete page header or record. -/
  incompleteTails : ℕ := 0
deriving DecidableEq, Repr

/-- Exact location of one encoded operation inside an append-only segment. -/
structure OpRecordLocation where
  segmentSeq : ℕ
  /-- Byte offset of the encoded operation, after length and flags. -/
  dataOffset : ℕ
  dataLen : ℕ
  /-- Independent record checksum in EC03; absent for legacy locations. -/
  checksum : Option UInt32
deriving DecidableEq, Repr

/-- Retained evidence and decoded accepted operations from one read. -/
structure CanonicalChain (Op : Type) where
  evidence : OpSet := OpSet.new
  accepted : ExtTreeMap OpId (Op × Option OpRecordLocation) := ∅
  counts : ChainReadStats := {}

namespace CanonicalChain

/-- `CanonicalChain::admit`. -/
def admitOp (chain : CanonicalChain Op) (op : Op) (encoded : Bytes)
    (location : Option OpRecordLocation) : Admission × CanonicalChain Op :=
  let counts := { chain.counts with records := chain.counts.records + 1 }
  let wasAccepted := chain.evidence.contains (Schema.id op)
  let (result, evidence) := chain.evidence.insert (Schema.id op) encoded
  match result with
  | .accepted =>
    (result, ⟨evidence, chain.accepted.insert (Schema.id op) (op, location), counts⟩)
  | .duplicate =>
    (result, ⟨evidence, chain.accepted, { counts with duplicates := counts.duplicates + 1 }⟩)
  | .conflict =>
    (result, ⟨evidence, chain.accepted.erase (Schema.id op),
      { counts with quarantined := counts.quarantined + if wasAccepted then 2 else 1 }⟩)

/-- Count an undecodable complete record. -/
def recordUndecodable (chain : CanonicalChain Op) : CanonicalChain Op :=
  { chain with counts := { chain.counts with undecodable := chain.counts.undecodable + 1 } }

/-- Track whether the active frontier ends with an incomplete record. -/
def recordTailChange (chain : CanonicalChain Op) (isIncomplete : Bool) : CanonicalChain Op :=
  { chain with counts :=
    { chain.counts with
      incompleteTails :=
        if isIncomplete then chain.counts.incompleteTails + 1
        else chain.counts.incompleteTails - 1 } }

/-- Final counts for the currently accepted corpus and all retained evidence. -/
def stats (chain : CanonicalChain Op) : ChainReadStats :=
  { chain.counts with accepted := chain.accepted.size }

/-- Read one accepted identity. -/
def get (chain : CanonicalChain Op) (id : OpId) : Option Op := chain.accepted[id]?.map Prod.fst

/-- Accepted operations and their first durable locations in identity order. -/
def locatedOps (chain : CanonicalChain Op) : List (Op × Option OpRecordLocation) :=
  chain.accepted.toList.map Prod.snd

/-- Replay the records of an append log, without locations. -/
def replayLog (records : List Record) : CanonicalChain Op :=
  records.foldl (fun chain record =>
    match Schema.decodeOp record.data with
    | .ok op => (chain.admitOp op record.data none).2
    | .error _ => chain.recordUndecodable) {}

/-- Replay a portable append-log adapter. -/
def readLog {L : Type} (log : AppendLog L) : Fallible IoError L (CanonicalChain Op) := do
  let (records, stats) ← log.visitRecords
  let chain := replayLog records
  return { chain with counts := { chain.counts with incompleteTails := stats.incompleteTails } }

/-- Admit one scanned record of a segment. -/
def scanRecord (chain : CanonicalChain Op) (segmentSeq : ℕ) (record : RecordRef) :
    CanonicalChain Op :=
  match Schema.decodeOp record.data with
  | .ok op => (chain.admitOp op record.data
      (some ⟨segmentSeq, record.dataOffset, record.data.length, record.checksum⟩)).2
  | .error _ => chain.recordUndecodable

/-- Consume the items of one segment. -/
def scanItems (segmentSeq : ℕ) :
    List (Except ScanError ScanItem) → CanonicalChain Op → Except IoError (CanonicalChain Op)
  | [], chain => .ok chain
  | .ok (.page _ _) :: rest, chain => scanItems segmentSeq rest chain
  | .ok (.record record) :: rest, chain =>
    scanItems segmentSeq rest (chain.scanRecord segmentSeq record)
  | .error error :: _, chain =>
    if error.kind = .incompleteTail then
      .ok { chain with counts :=
        { chain.counts with incompleteTails := chain.counts.incompleteTails + 1 } }
    else .error (invalid error.display)

/-- Scan one segment. -/
def scan (chain : CanonicalChain Op) (segmentSeq : ℕ) (bytes : Bytes) :
    Except IoError (CanonicalChain Op) :=
  scanItems segmentSeq (PageScanner.new bytes).items.1 chain

/-- Read the listed segments. -/
def readSegments (d : Directory) :
    List ℕ → CanonicalChain Op → Except IoError (CanonicalChain Op)
  | [], chain => .ok chain
  | segmentSeq :: rest, chain => do
    let bytes ← d.read segmentSeq
    readSegments d rest (← chain.scan segmentSeq bytes)

/-- Read all complete records of a chain. -/
def read (d : Directory) : Except IoError (CanonicalChain Op) := do
  readSegments d (← d.segmentSequences) {}

end CanonicalChain

/-- Read bounded exact evidence bytes from an indexed immutable record location. -/
def readEncodedAt (d : Directory) (location : OpRecordLocation) : Except IoError Bytes :=
  if maxRecordBytes < location.dataLen then .error (invalid "record location is too large")
  else
    match d.segments[location.segmentSeq]? with
    | none => .error Directory.notFound
    | some file =>
      let encoded := (file.bytes.drop location.dataOffset).take location.dataLen
      if encoded.length ≠ location.dataLen then
        .error ⟨.unexpectedEof, "failed to fill whole buffer"⟩
      else if location.checksum.any (Checksum.checksum encoded ≠ ·) then
        .error (invalid "record checksum mismatch")
      else .ok encoded

/-- Decode one operation directly from its segment-record location. -/
def readOpAt (d : Directory) (location : OpRecordLocation) : Except IoError Op := do
  match Schema.decodeOp (← readEncodedAt d location) with
  | .ok op => return op
  | .error error => throw (invalid error.text)

end EditChain.Store
