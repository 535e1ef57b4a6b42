import EditChain.Store.Reader

/-!
# Append frontiers

A `Tail` follows a chain that is being appended to. It remembers a segment, an offset at a unit
boundary of it and the open page, and reads on from there, a bounded slice at a time; it moves to
the next segment when it made no progress in the current one and the next one exists. File lengths
and offsets inside a file fit in 64 bits and are plain numbers here.
-/

namespace EditChain.Store

open Core Fallible
open Std (ExtTreeMap ExtTreeSet)

variable {Op : Type} [Schema Op] [Checksum]

/-- Work performed by one frontier read. -/
structure TailWork where
  bytesRead : ℕ := 0
  recordsDecoded : ℕ := 0
  undecodable : ℕ := 0
deriving DecidableEq, Repr

/-- Canonical additions and retractions caused by newly encountered bytes. -/
structure ChainDelta (Op : Type) where
  /-- Newly accepted operations, after conflicts within this batch are removed. -/
  added : ExtTreeMap OpId (Op × OpRecordLocation) := ∅
  /-- Identities quarantined by newly encountered conflicting evidence. -/
  removed : ExtTreeSet OpId := ∅
  work : TailWork := {}

/-- Admission storage used by an append frontier. -/
class TailCorpus (Op : outParam Type) (C : Type) where
  empty : C
  /-- Admit the bytes at a durable record location of the chain in the directory. -/
  admitRecord : Directory → Op → Bytes → OpRecordLocation → Fallible IoError C Admission
  recordUndecodable : C → C
  recordTailChange : Bool → C → C

instance : TailCorpus Op (CanonicalChain Op) where
  empty := {}
  admitRecord _ op encoded location :=
    of fun chain =>
      let (admission, chain) := chain.admitOp op encoded (some location)
      (.ok admission, chain)
  recordUndecodable chain := chain.recordUndecodable
  recordTailChange incomplete chain := chain.recordTailChange incomplete

/-! ## File stamps -/

/-- What identifies a state of a file. -/
structure FileStamp where
  identity : ℕ × ℕ
  length : ℕ
  modified : ℕ
deriving DecidableEq, Repr

namespace FileStamp

/-- `FileStamp::read` of a file's metadata. -/
def read (file : SegmentFile) : FileStamp := ⟨file.identity, file.bytes.length, file.modified⟩

/-- A file may grow, but neither shrink nor be replaced nor change in place. -/
def validateSuccessor (previous current : FileStamp) : Except IoError Unit :=
  if current.identity ≠ previous.identity ∨ current.length < previous.length
      ∨ (current.length = previous.length ∧ current.modified ≠ previous.modified) then
    .error (invalid "chain frontier changed non-monotonically; reload required")
  else .ok ()

end FileStamp

/-- A chain corpus retained across append reads. -/
structure Tail (C : Type) where
  root : String
  chain : C
  segment : ℕ
  offset : ℕ
  page : Option UInt32
  observed : Option FileStamp
  sealed : ExtTreeMap ℕ FileStamp
  incomplete : Bool

namespace Tail

variable {C : Type} [TailCorpus Op C]

/-- An empty admission frontier. -/
def empty (root : String) : Tail C where
  root := root
  chain := TailCorpus.empty
  segment := 0
  offset := 0
  page := none
  observed := none
  sealed := ∅
  incomplete := false

/-- The frontier file may have grown since it was last observed. A new modification time with the
same length is an append in progress while a writer holds the lock. -/
def validateFrontier (tail : Tail C) (d : Directory) (current : FileStamp) : Except IoError Unit :=
  match tail.observed with
  | none => .ok ()
  | some previous =>
    if current.identity = previous.identity ∧ current.length = previous.length
        ∧ current.modified ≠ previous.modified then
      match d.lock with
      | .missing => previous.validateSuccessor current
      | .held => .error ⟨.wouldBlock, "lock acquisition failed because the operation would block"⟩
      | .free =>
        match d.segments[tail.segment]? with
        | none => .error Directory.notFound
        | some settled => previous.validateSuccessor (FileStamp.read settled)
    else previous.validateSuccessor current

/-- Open the frontier file and take its metadata; `none` if there is nothing to read now. -/
def openFrontier (tail : Tail C) (d : Directory) : Except IoError (Option FileStamp) :=
  match d.segments[tail.segment]? with
  | none => if tail.observed = none then .ok none else .error Directory.notFound
  | some file =>
    match tail.validateFrontier d (FileStamp.read file) with
    | .ok () => .ok (some (FileStamp.read file))
    | .error error => if error.kind = .wouldBlock then .ok none else .error error

/-- Read at most one largest frame from the saved offset. -/
def readFrontier (tail : Tail C) (d : Directory) : Bytes :=
  match d.segments[tail.segment]? with
  | none => []
  | some file => (file.bytes.drop tail.offset).take maxFrameBytes

/-- The complete records of a slice, unless its framing is invalid. -/
def completeRecords : List (Except ScanError ScanItem) → Except IoError (List RecordRef)
  | [] => .ok []
  | .ok (.page _ _) :: rest => completeRecords rest
  | .ok (.record record) :: rest => do
    let records ← completeRecords rest
    return record :: records
  | .error error :: _ =>
    if error.kind = .incompleteTail then .ok [] else .error (invalid error.display)

/-- Apply a change to the retained corpus. -/
def onChain {α : Type} (m : Fallible IoError C α) : Fallible IoError (Tail C) α :=
  zoom Tail.chain (fun chain tail => { tail with chain := chain }) m

/-- Note one admission in the delta. -/
def note (delta : ChainDelta Op) (op : Op) (location : OpRecordLocation) :
    Admission → ChainDelta Op
  | .accepted => { delta with added := delta.added.insert (Schema.id op) (op, location) }
  | .duplicate => delta
  | .conflict =>
    { delta with
      added := delta.added.erase (Schema.id op)
      removed := delta.removed.insert (Schema.id op) }

/-- Decode and admit one complete record. -/
def admitOne (d : Directory) (record : RecordRef) (delta : ChainDelta Op) :
    Fallible IoError (Tail C) (ChainDelta Op) := do
  match Schema.decodeOp record.data with
  | .error _ =>
    modify fun tail => { tail with chain := TailCorpus.recordUndecodable tail.chain }
    return { delta with work := { delta.work with undecodable := delta.work.undecodable + 1 } }
  | .ok op =>
    let tail ← get
    let delta := { delta with
      work := { delta.work with recordsDecoded := delta.work.recordsDecoded + 1 } }
    let location : OpRecordLocation :=
      ⟨tail.segment, tail.offset + record.dataOffset, record.data.length, record.checksum⟩
    let admission ← onChain (TailCorpus.admitRecord d op record.data location)
    return note delta op location admission

/-- Decode and admit complete records in order. -/
def admitRecords (d : Directory) :
    List RecordRef → ChainDelta Op → Fallible IoError (Tail C) (ChainDelta Op)
  | [], delta => return delta
  | record :: records, delta => do
    let delta ← admitOne d record delta
    admitRecords d records delta

/-- Scan a slice from the saved offset; the result says whether it was not consumed entirely. -/
def scan (d : Directory) (bytes : Bytes) (delta : ChainDelta Op) :
    Fallible IoError (Tail C) (Bool × ChainDelta Op) := do
  let tail ← get
  let (items, scanner) := (PageScanner.resume bytes tail.page).items
  -- validate the bounded slice before mutating canonical admission
  let records ← lift (completeRecords items)
  let delta ← admitRecords d records delta
  modify fun tail =>
    { tail with offset := tail.offset + scanner.consumed, page := scanner.pageSequence }
  return (scanner.consumed < bytes.length, delta)

/-- Scan a slice, and update the incomplete flag and the observed stamp. -/
def admitFrontier (d : Directory) (metadata : FileStamp) (bytes : Bytes) (delta : ChainDelta Op) :
    Fallible IoError (Tail C) (ChainDelta Op) := do
  let delta := { delta with
    work := { delta.work with bytesRead := delta.work.bytesRead + bytes.length } }
  let previous ← get
  let (partly, delta) ← scan d bytes delta
  let incomplete := partly && decide (metadata.length ≤ previous.offset + bytes.length)
  modify fun tail =>
    { tail with
      chain :=
        if tail.incomplete ≠ incomplete then TailCorpus.recordTailChange incomplete tail.chain
        else tail.chain
      incomplete := incomplete
      observed := some metadata }
  return delta

/-- The number of the next segment. -/
def nextSegment (tail : Tail C) : Except IoError ℕ :=
  if tail.segment + 1 < sequenceLimit then .ok (tail.segment + 1)
  else .error (invalid "segment sequence exhausted")

/-- Seal the current segment and move to the next one. -/
def advance (tail : Tail C) (next : ℕ) : Tail C :=
  { tail with
    sealed :=
      match tail.observed with
      | some stamp => tail.sealed.insert tail.segment stamp
      | none => tail.sealed
    segment := next
    offset := 0
    page := none
    observed := none
    incomplete := false }

/-- The loop of `poll`. -/
def pollLoop (d : Directory) : ℕ → ChainDelta Op → Fallible IoError (Tail C) (ChainDelta Op)
  | 0, delta => return delta
  | fuel + 1, delta => do
    let before ← get
    match ← lift (before.openFrontier d) with
    | none => return delta
    | some metadata =>
      let delta ← admitFrontier d metadata (before.readFrontier d) delta
      let after ← get
      if before.offset < after.offset then return delta
      let next ← lift after.nextSegment
      if d.segments[next]? = none then return delta
      set (after.advance next)
      pollLoop d fuel delta

/-- Read one bounded portion of newly appended records. The loop moves to an existing segment each
time around. -/
def poll (d : Directory) : Fallible IoError (Tail C) (ChainDelta Op) :=
  pollLoop d (d.segments.size + 1) {}

/-- Fold the delta of one more poll into a result. -/
def fold (result delta : ChainDelta Op) : ChainDelta Op where
  added := delta.removed.toList.foldl (fun added id => added.erase id)
    (delta.added.toList.foldl (fun added r => added.insert r.1 r.2) result.added)
  removed := delta.removed.toList.foldl (fun removed id => removed.insert id) result.removed
  work :=
    { bytesRead := result.work.bytesRead + delta.work.bytesRead
      recordsDecoded := result.work.recordsDecoded + delta.work.recordsDecoded
      undecodable := result.work.undecodable + delta.work.undecodable }

/-- The loop of `drain`. -/
def drainLoop (d : Directory) : ℕ → ChainDelta Op → Fallible IoError (Tail C) (ChainDelta Op)
  | 0, result => return result
  | fuel + 1, result => do
    let before ← get
    let delta ← poll d
    let result := fold result delta
    let after ← get
    if (before.segment, before.offset) = (after.segment, after.offset) then return result
    drainLoop d fuel result

/-- The bytes in all segments. -/
def totalBytes (d : Directory) : ℕ := (d.segments.toList.map fun r => r.2.bytes.length).sum

/-- Drain the currently available append frontier. Every poll but the last moves the frontier
forward, by at least one byte or one segment. -/
def drain (d : Directory) : Fallible IoError (Tail C) (ChainDelta Op) :=
  drainLoop d (totalBytes d + d.segments.size + 2) {}

/-- Validate a saved frontier without decoding sealed records. -/
def resume (tail : Tail C) (root : String) (d : Directory) : Except IoError Unit := do
  if tail.root ≠ root then throw (invalid "checkpoint belongs to another chain")
  for (index, stamp) in tail.sealed.toList do
    match d.segments[index]? with
    | none => throw Directory.notFound
    | some file =>
      if FileStamp.read file ≠ stamp then throw (invalid "sealed checkpoint segment changed")
  if tail.observed ≠ none then
    match d.segments[tail.segment]? with
    | none => throw Directory.notFound
    | some file => tail.validateFrontier d (FileStamp.read file)

end Tail
end EditChain.Store
