import EditChain.Lib.Fallible
import EditChain.Store.Directory
import EditChain.Store.Log

/-!
# The segment store

`SegmentStore` appends whole frames to the last segment of a chain directory. Every step of an
append may fail: the file system's part in a call is an explicit argument, which says where it
fails and how much was written by then.
-/

namespace EditChain.Store

open Fallible

variable [Checksum]

/-- `b"EC03-packed-v2\n"`. -/
def packingVersion : Bytes := "EC03-packed-v2\n".toUTF8.toList

/-- `b"EC02-packed-v1\n"`. -/
def legacyPackingVersion : Bytes := "EC02-packed-v1\n".toUTF8.toList

def frameTargetBytes : ℕ := 1024 * 1024

/-- The error of an exhausted segment sequence. -/
def sequenceExhausted : IoError := invalid "segment sequence exhausted"

/-- The error of a writer that meets a legacy chain. -/
def migrationRequired : IoError :=
  ⟨.unsupported, "EC02 chain is read-only; run editchain --chain SOURCE migrate --destination NEW_CHAIN before writing"⟩

/-- The writer's view of a chain directory. -/
structure SegmentStore where
  /-- The current segment. -/
  nextSeq : ℕ
  maxSegmentBytes : ℕ
  length : ℕ
  /-- A failed write has an unknown outcome and must be rescanned before reuse. -/
  needsRecovery : Bool
  initializeLayout : Bool
deriving DecidableEq, Repr

/-- An open store and the directory it writes. -/
structure Writer where
  directory : Directory
  store : SegmentStore

/-- What the file system does during one append: the identity of a file it creates, the time of the
write, and the failures. -/
structure AppendIo where
  identity : ℕ × ℕ := (0, 0)
  modified : ℕ := 0
  recoverRead : Option IoError := none
  recoverRotate : Option IoError := none
  rotate : Option IoError := none
  openFile : Option IoError := none
  /-- The write or sync fails after this many bytes. -/
  persist : Option (ℕ × IoError) := none
  /-- Publishing the marker fails, before or after it takes effect. -/
  marker : Option (Bool × IoError) := none
  metadata : Option IoError := none

namespace SegmentStore

/-- Fail if the file system does. -/
def check (fault : Option IoError) : Fallible IoError Writer Unit :=
  match fault with
  | some error => throw error
  | none => pure ()

/-- Change the store. -/
def update (f : SegmentStore → SegmentStore) : Fallible IoError Writer Unit :=
  modify fun w => { w with store := f w.store }

/-- Rotate after a written segment. An unwritten segment stays current. -/
def rotate (fault : Option IoError) : Fallible IoError Writer Unit := do
  check fault
  let w ← get
  if w.directory.segments[w.store.nextSeq]? = none then return ()
  if w.store.nextSeq + 1 < sequenceLimit then
    update fun s => { s with nextSeq := s.nextSeq + 1, length := 0 }
  else throw sequenceExhausted

/-- Whether a scan of the segment ends in an incomplete tail, unless its framing is invalid. -/
def endsIncomplete : List (Except ScanError ScanItem) → Except IoError Bool
  | [] => .ok false
  | .ok _ :: rest => endsIncomplete rest
  | .error error :: _ =>
    if error.kind = .incompleteTail then .ok true else .error (invalid error.display)

/-- Rescan the current segment, and leave it if it is torn or full. -/
def recoverFrontier (readFault rotateFault : Option IoError) : Fallible IoError Writer Unit := do
  check readFault
  let w ← get
  match w.directory.segments[w.store.nextSeq]? with
  | none => update fun s => { s with length := 0, needsRecovery := false }
  | some file =>
    update fun s => { s with length := file.bytes.length }
    let incomplete ← lift (endsIncomplete (PageScanner.new file.bytes).items.1)
    if incomplete ∨ w.store.maxSegmentBytes ≤ file.bytes.length then rotate rotateFault
    update fun s => { s with needsRecovery := false }

/-- The current segment file, created if it is not there. -/
def currentFile (w : Writer) (io : AppendIo) : SegmentFile :=
  w.directory.segments[w.store.nextSeq]?.getD ⟨[], io.identity, io.modified⟩

/-- Write bytes at the end of the current segment; only a write of some bytes changes the
modification time. -/
def writeBytes (io : AppendIo) (bytes : Bytes) : Fallible IoError Writer Unit :=
  modify fun w =>
    let file := currentFile w io
    let written : SegmentFile :=
      { file with
        bytes := file.bytes ++ bytes
        modified := if bytes = [] then file.modified else io.modified }
    { w with directory :=
      { w.directory with segments := w.directory.segments.insert w.store.nextSeq written } }

/-- Write the frame and make it durable. -/
def persist (io : AppendIo) (encoded : Bytes) : Fallible IoError Writer Unit :=
  match io.persist with
  | some (written, error) => do
    writeBytes io (encoded.take written)
    throw error
  | none => writeBytes io encoded

/-- Publish the packing marker once a segment beyond legacy history is durable. -/
def publishLayout (io : AppendIo) : Fallible IoError Writer Unit := do
  let publish : Fallible IoError Writer Unit :=
    modify fun w => { w with directory := { w.directory with packingMarker := some packingVersion } }
  match io.marker with
  | some (published, error) =>
    if published then publish
    throw error
  | none =>
    publish
    update fun s => { s with initializeLayout := false }

/-- The part of `append_with` before the file is opened: recovery, and rotation by size. -/
def prepare (io : AppendIo) (length : ℕ) : Fallible IoError Writer Unit := do
  let w ← get
  if w.store.needsRecovery then recoverFrontier io.recoverRead io.recoverRotate
  let w ← get
  if 0 < w.store.length ∧ w.store.maxSegmentBytes < w.store.length + length then
    rotate io.rotate

/-- The part of `append_with` from there on: the write, the marker and the new length. -/
def writeFrame (io : AppendIo) (encoded : Bytes) : Fallible IoError Writer Unit := do
  update fun s => { s with needsRecovery := true }
  check io.openFile
  persist io encoded
  let w ← get
  if w.store.initializeLayout then publishLayout io
  check io.metadata
  let w ← get
  update fun s =>
    { s with length := (currentFile w io).bytes.length, needsRecovery := false }

/-- `append_with`: append one frame to the current segment. -/
def appendPage (page : Page) (io : AppendIo) : Fallible IoError Writer Unit := do
  let encoded ← lift (match encodeRecords page.pageSeq page.records with
    | .ok encoded => .ok encoded
    | .error error => .error ⟨.invalidInput, error.display⟩)
  prepare io encoded.length
  writeFrame io encoded

/-- The loop of `append_records`: fill a page, write it when the next record would exceed the
target. -/
def appendLoop : List Record → Page → ℕ → List AppendIo → Fallible IoError Writer Unit
  | [], page, _, ios => if page.records ≠ [] then appendPage page (ios.headD {}) else return ()
  | record :: records, page, length, ios => do
    let w ← get
    let added := record.data.length + recordOverhead
    if page.records ≠ [] ∧ min frameTargetBytes w.store.maxSegmentBytes < length + added then
      appendPage page (ios.headD {})
      let w ← get
      appendLoop records ((Page.new (UInt32.ofNat w.store.nextSeq)).addRecord record.flags record.data)
        (frameOverhead + added) ios.tail
    else appendLoop records (page.addRecord record.flags record.data) (length + added) ios

/-- Append records in pages of bounded size; the `i`-th page meets the `i`-th file system
behaviour. -/
def appendRecords (records : List Record) (ios : List AppendIo) : Fallible IoError Writer Unit := do
  let w ← get
  appendLoop records (Page.new (UInt32.ofNat w.store.nextSeq)) frameOverhead ios

/-! ## Reading -/

/-- The records of one segment that are handed to a visitor, and whether it ends incompletely. -/
def visitItems : List (Except ScanError ScanItem) → Except IoError (List Record × ℕ)
  | [] => .ok ([], 0)
  | .ok (.page _ _) :: rest => visitItems rest
  | .ok (.record record) :: rest => do
    let (records, tails) ← visitItems rest
    return (⟨record.flags, record.data⟩ :: records, tails)
  | .error error :: _ =>
    if error.kind = .incompleteTail then .ok ([], 1) else .error (invalid error.display)

/-- Visit the records of the listed segments. -/
def visitSegments (d : Directory) : List ℕ → Except IoError (List Record × ℕ)
  | [] => .ok ([], 0)
  | sequence :: rest => do
    let bytes ← d.read sequence
    let (records, tails) ← visitItems (PageScanner.new bytes).items.1
    let (others, otherTails) ← visitSegments d rest
    return (records ++ others, tails + otherTails)

/-- Visit complete records, including duplicates and conflicting variants. -/
def visitRecords (d : Directory) : Except IoError (List Record × LogReadStats) := do
  let (records, tails) ← visitSegments d (← d.segmentSequences)
  return (records, ⟨tails⟩)

/-- An open store as an append log, on a file system that does not fail. -/
def log : AppendLog Writer where
  visitRecords := do
    let w ← get
    lift (visitRecords w.directory)
  appendRecord flags encoded := appendRecords [⟨flags, encoded⟩] []
  appendRecords records := appendRecords records []
  sync := do
    let w ← get
    let _sequences ← lift w.directory.segmentSequences
    return ()

/-! ## Opening -/

/-- What the file system does while a store is opened. -/
structure OpenIo where
  createDir : Option IoError := none
  lockFile : Option IoError := none
  readFormat : Option IoError := none
  readMarker : Option IoError := none
  readDir : Option IoError := none
  recoverRead : Option IoError := none
  recoverRotate : Option IoError := none
  rotate : Option IoError := none

/-- Reject a chain that retains a legacy segment. -/
def requireCurrentFormat (d : Directory) : List ℕ → Except IoError Unit
  | [] => .ok ()
  | sequence :: rest => do
    let bytes ← d.read sequence
    if bytes.take 4 = pageMagic then throw migrationRequired
    requireCurrentFormat d rest

/-- Whether the packing marker is still to be written. -/
def packingMarkerMissing (d : Directory) : Except IoError Bool :=
  match d.packingMarker with
  | none => .ok true
  | some bytes =>
    if bytes = packingVersion then .ok false
    else if bytes = legacyPackingVersion then .error migrationRequired
    else .error (invalid "unsupported segment layout marker")

/-- Fail with an injected error, else give the outcome. -/
def unlessFault {α : Type} (fault : Option IoError) (outcome : Except IoError α) :
    Except IoError α :=
  match fault with
  | some error => .error error
  | none => outcome

/-- The checks of `open_inner` under the writer lock, and the store they lead to. -/
def inspect (d : Directory) (maxSegmentBytes : ℕ) (io : OpenIo) : Except IoError SegmentStore := do
  unlessFault io.readFormat do
    requireCurrentFormat d (← d.segmentSequences)
  let initializeLayout ← unlessFault io.readMarker (packingMarkerMissing d)
  let sequences ← unlessFault io.readDir d.segmentSequences
  return ⟨sequences.getLastD 0, maxSegmentBytes, 0, true, initializeLayout⟩

/-- Recover the frontier of a fresh store, and leave a legacy boundary behind. -/
def settle (io : OpenIo) : Fallible IoError Writer Unit := do
  recoverFrontier io.recoverRead io.recoverRotate
  let w ← get
  if w.store.initializeLayout then rotate io.rotate

/-- `open_inner`; the lock is released again if opening fails. -/
def openInner (migration : Bool) (maxSegmentBytes : ℕ) (io : OpenIo) (d : Directory) :
    Except IoError SegmentStore × Directory :=
  if !migration && d.migrating then
    (.error ⟨.other, "migration staging chain is not yet published"⟩, d)
  else if maxSegmentBytes = 0 then (.error ⟨.invalidInput, "zero segment size"⟩, d)
  else
    match io.createDir, io.lockFile with
    | some error, _ => (.error error, d)
    | none, some error => (.error error, d)
    | none, none =>
      if d.lock = .held then
        (.error ⟨.wouldBlock, "lock acquisition failed because the operation would block"⟩, d)
      else
        match inspect d maxSegmentBytes io with
        | .error error => (.error error, { d with lock := .free })
        | .ok store =>
          match (settle io).exec ⟨{ d with lock := .held }, store⟩ with
          | (.error error, w) => (.error error, { w.directory with lock := .free })
          | (.ok (), w) => (.ok w.store, w.directory)

/-- Dropping the store releases the lock. -/
def close (w : Writer) : Directory := { w.directory with lock := .free }

end SegmentStore

/-! ## Runs -/

/-- A chain directory and the store that is open on it, if any. -/
structure Chain where
  directory : Directory
  store : Option SegmentStore

/-- A chain that was never opened. -/
def Chain.empty : Chain := ⟨Directory.empty, none⟩

/-- A call on a chain, with the behaviour of the file system during the call. -/
inductive Call where
  | appendPage (page : Page) (io : AppendIo)
  | appendRecords (records : List Record) (ios : List AppendIo)
  | rotate (fault : Option IoError)
  | close
  | reopen (maxSegmentBytes : ℕ) (io : SegmentStore.OpenIo)

/-- Run a method of the open store. -/
def Chain.method (m : Fallible IoError Writer Unit) (c : Chain) :
    Option (Except IoError Unit × Chain) :=
  c.store.map fun store =>
    let (outcome, w) := m.exec ⟨c.directory, store⟩
    (outcome, ⟨w.directory, some w.store⟩)

/-- The outcome of a call; methods need an open store. -/
def Call.exec : Call → Chain → Option (Except IoError Unit × Chain)
  | .appendPage page io, c => c.method (SegmentStore.appendPage page io)
  | .appendRecords records ios, c => c.method (SegmentStore.appendRecords records ios)
  | .rotate fault, c => c.method (SegmentStore.rotate fault)
  | .close, c => c.store.map fun store => (.ok (), ⟨SegmentStore.close ⟨c.directory, store⟩, none⟩)
  | .reopen maxSegmentBytes io, c =>
    match SegmentStore.openInner false maxSegmentBytes io c.directory with
    | (.ok store, directory) => some (.ok (), ⟨directory, some store⟩)
    | (.error error, directory) => some (.error error, ⟨directory, c.store⟩)

/-- A call of a run: the chain before it and its outcome. -/
structure Event where
  before : Chain
  call : Call
  outcome : Except IoError Unit

/-- Make calls one after another. -/
def Chain.run : List Call → Chain → Option (List Event × Chain)
  | [], c => some ([], c)
  | call :: calls, c => do
    let (outcome, next) ← call.exec c
    let (events, last) ← Chain.run calls next
    return (⟨c, call, outcome⟩ :: events, last)

end EditChain.Store
