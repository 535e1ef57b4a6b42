import EditChain.Migration.Scope
import EditChain.Sync.Replica

/-!
# The migration of a chain

`migrate` converts a source chain into `<destination>.migrating`, segment by segment with a
checkpoint after each, verifies the digest of the whole conversion and renames the directory. Every
run comes with a script of what the file system does and of when it is cancelled, so that a run may
stop before, after or inside any durable step; whatever was written by then stays for the next run.
-/

namespace EditChain.Migration

open ByteString Fallible Store Sync
open Std (ExtTreeMap)

/-! ## The disk -/

/-- How far a durable step came before the run stopped. -/
inductive Stop where
  | before
  /-- A temporary file was created and not renamed. -/
  | between
  | after
deriving DecidableEq, Repr

/-- A fault of a durable step. -/
abbrev StepFault := Option (Stop × IoError)

/-- `MigrationReport`, without its timings. -/
structure MigrationReport where
  records : ℕ := 0
  outputRecords : ℕ := 0
  unknownRecords : ℕ := 0
  incompleteTails : ℕ := 0
  sourceSegments : ℕ := 0
  sourceBytes : ℕ := 0
  destinationBytes : ℕ := 0
  semanticDigest : Option Digest := none
deriving DecidableEq, Repr

/-- The contents of `.migration.json`. -/
structure Checkpoint where
  version : ℕ := 1
  complete : Bool := false
  source : String
  originals : List Digest := []
  frontier : Option (ℕ × ℕ) := none
  report : MigrationReport := {}
  transform : Option String := none
  exactDigest : Bool := false
deriving DecidableEq, Repr

/-- A directory that is being migrated into, or was. -/
structure Staging where
  chain : Directory := Directory.empty
  /-- `.migration.json`. -/
  checkpoint : Option Checkpoint := none
  /-- `migration-v1/original/`, by segment. -/
  originals : ExtTreeMap ℕ Bytes := ∅
  /-- `migration-v1/manifest.json`. -/
  manifest : Option Checkpoint := none
  /-- `blobs/` and `cursors/`, by path. -/
  auxiliary : ExtTreeMap String Bytes := ∅
  policy : PolicyFiles := {}
  /-- An unreferenced temporary file lies in the directory. -/
  leftover : Bool := false

/-- What the file system does during a run, and when the run is cancelled; where a part ends,
everything works. -/
structure Script where
  cancels : List Bool := []
  steps : List StepFault := []
  opens : List SegmentStore.OpenIo := []
  appends : List (List AppendIo) := []
  policies : List (List WriteFault × List Bool) := []

/-- `<destination>.migrating`, the destination, and the script of the present run. -/
structure Disk where
  staging : Option Staging := none
  destination : Option Staging := none
  script : Script := {}

/-- The source chain: its path, its files, and the files under `blobs/` and `cursors/`, without
contents where they are not regular files. -/
structure Source where
  path : String
  root : Root
  auxiliary : List (String × Option Bytes) := []

/-- BLAKE3 in its key derivation mode, for semantic digests. -/
class SemanticHash where
  hash : Bytes → Digest

namespace Disk

/-- Change the staging directory. -/
def onStaging (f : Staging → Staging) (disk : Disk) : Disk :=
  { disk with staging := disk.staging.map f }

/-- Change the destination. -/
def onDestination (f : Staging → Staging) (disk : Disk) : Disk :=
  { disk with destination := disk.destination.map f }

/-- `check_cancel`. -/
def checkCancel : Fallible IoError Disk Unit := do
  let disk ← get
  set { disk with script := { disk.script with cancels := disk.script.cancels.tail } }
  if disk.script.cancels.headD false then throw interrupted

/-- A durable step; `litter` is what a stop inside it leaves behind. -/
def durable (effect : Disk → Disk) (litter : Disk → Disk := id) : Fallible IoError Disk Unit := do
  let disk ← get
  set { disk with script := { disk.script with steps := disk.script.steps.tail } }
  match disk.script.steps.headD none with
  | none => modify effect
  | some (.before, error) => throw error
  | some (.between, error) =>
    modify litter
    throw error
  | some (.after, error) =>
    modify effect
    throw error

/-- The staging directory, which exists while a run works on it. -/
def staged : Fallible IoError Disk Staging := do
  let disk ← get
  match disk.staging with
  | some staging => return staging
  | none => throw Directory.notFound

end Disk

open Disk

/-! ## Checkpoints -/

/-- `save`: the temporary file lies in the staging directory itself. -/
def save (state : Checkpoint) : Fallible IoError Disk Unit :=
  durable (onStaging fun staging => { staging with checkpoint := some state })
    (onStaging fun staging => { staging with leftover := true })

/-- Nothing but the lock file is in the directory. -/
def Staging.bare (staging : Staging) : Bool :=
  staging.chain.segments.isEmpty && staging.chain.packingMarker.isNone
    && decide (staging.chain.lock = .missing) && staging.chain.misnamed.isNone
    && staging.originals.isEmpty && staging.manifest.isNone && staging.auxiliary.isEmpty
    && staging.policy.original.isNone && staging.policy.revision.isNone
    && staging.policy.scope.isNone && !staging.leftover

/-- `checkpoint`. -/
def checkpoint (path : String) : Fallible IoError Disk Checkpoint := do
  let staging ← staged
  match staging.checkpoint with
  | some state =>
    if state.version ≠ 1 ∨ state.source ≠ path then
      throw (invalid "staging directory belongs to another migration")
    return state
  | none =>
    if !staging.bare then throw (invalid "unowned migration staging directory")
    let state : Checkpoint := { source := path }
    save state
    return state

/-- The last segment and its length. -/
def frontierOf (d : Directory) (sequences : List ℕ) : Option (ℕ × ℕ) :=
  sequences.getLast?.map fun sequence =>
    (sequence, (d.segments[sequence]?.map fun file => file.bytes.length).getD 0)

/-- Cut a segment. -/
def truncate (sequence length : ℕ) (d : Directory) : Directory :=
  match d.segments[sequence]? with
  | some file =>
    { d with segments := d.segments.insert sequence { file with bytes := file.bytes.take length } }
  | none => d

/-- The loop of `rollback`, from the last segment. -/
def rollbackSegments (frontier : Option (ℕ × ℕ)) : List ℕ → Fallible IoError Disk Unit
  | [] => return ()
  | sequence :: rest => do
    match frontier with
    | some (last, length) =>
      if sequence = last then
        let staging ← staged
        if (staging.chain.segments[sequence]?.map fun file => file.bytes.length).getD 0 < length then
          throw (invalid "checkpointed migration segment was truncated")
        durable (onStaging fun s => { s with chain := truncate sequence length s.chain })
      else if ¬ sequence < last then
        durable (onStaging fun s =>
          { s with chain := { s.chain with segments := s.chain.segments.erase sequence } })
    | none =>
      durable (onStaging fun s =>
        { s with chain := { s.chain with segments := s.chain.segments.erase sequence } })
    rollbackSegments frontier rest

/-- `rollback`: discard the output after the saved frontier. -/
def rollback (frontier : Option (ℕ × ℕ)) : Fallible IoError Disk Unit := do
  let staging ← staged
  let sequences ← lift staging.chain.segmentSequences
  if frontier.any fun f => !sequences.contains f.1 then
    throw (invalid "checkpointed migration segment is missing")
  rollbackSegments frontier sequences.reverse

variable {P : Payloads} [AddressHash] [Postcard P] [Blake3] [Checksum]

/-- The converted segments of the source and of the archive are as they were. -/
def verifyOriginals (source : Source) : ℕ → List Digest → Fallible IoError Disk Unit
  | _, [] => return ()
  | sequence, hash :: rest => do
    checkCancel
    let staging ← staged
    let original ← lift (source.root.chain.read sequence)
    if Blake3.hash original ≠ hash then
      throw (invalid "migration source or evidence archive changed")
    match staging.originals[sequence]? with
    | none => throw Directory.notFound
    | some archived =>
      if Blake3.hash archived ≠ hash then
        throw (invalid "migration source or evidence archive changed")
    verifyOriginals source (sequence + 1) rest

/-! ## Conversion -/

/-- The conversion of one record, which keeps its flags. -/
def convertRecord (record : Record) : Except IoError Record := do
  let encoded ← (migrateRecord record.data).mapError PostcardError.other
  return ⟨record.flags, encoded⟩

/-- A complete record is counted. -/
def MigrationReport.count (report : MigrationReport) (data : Bytes) : MigrationReport :=
  { report with
    records := saturatingAdd report.records 1
    unknownRecords := match (decodeOp data : Except PostcardError (Op P)) with
      | .error _ => saturatingAdd report.unknownRecords 1
      | .ok _ => report.unknownRecords
    outputRecords := saturatingAdd report.outputRecords 1 }

/-- Convert the items of one segment. -/
def convertItems : List (Except ScanError ScanItem) → MigrationReport →
    Fallible IoError Disk (List Record × MigrationReport)
  | [], report => return ([], report)
  | item :: rest, report => do
    checkCancel
    match item with
    | .ok (.page _ _) => convertItems rest report
    | .ok (.record record) =>
      let converted ← lift (convertRecord ⟨record.flags, record.data⟩)
      let (records, report) ← convertItems rest (report.count record.data)
      return (converted :: records, report)
    | .error error =>
      if error.kind = .incompleteTail then
        return ([], { report with incompleteTails := saturatingAdd report.incompleteTails 1 })
      else throw (invalid error.display)

/-- Call the writer of the staging directory. -/
def onWriter (store : SegmentStore) (m : Fallible IoError Writer Unit) :
    Fallible IoError Disk SegmentStore := do
  let staging ← staged
  let (result, w) := m.exec ⟨staging.chain, store⟩
  modify (onStaging fun s => { s with chain := w.directory })
  lift result
  return w.store

/-- `open_migration`. -/
def openMigration : Fallible IoError Disk SegmentStore := do
  let disk ← get
  set { disk with script := { disk.script with opens := disk.script.opens.tail } }
  let staging ← staged
  let (result, chain) := SegmentStore.openInner true defaultSegmentBytes
    (disk.script.opens.headD {}) staging.chain
  modify (onStaging fun s => { s with chain := chain })
  lift result

/-- `append_records`. -/
def appendConverted (store : SegmentStore) (records : List Record) :
    Fallible IoError Disk SegmentStore := do
  let disk ← get
  set { disk with script := { disk.script with appends := disk.script.appends.tail } }
  onWriter store (SegmentStore.appendRecords records (disk.script.appends.headD []))

/-- Convert the remaining segments, one checkpoint after each. -/
def convertSegments (source : Source) :
    List ℕ → SegmentStore → Checkpoint → Fallible IoError Disk Checkpoint
  | [], _, state => return state
  | sequence :: rest, store, state => do
    checkCancel
    let bytes ← lift (source.root.chain.read sequence)
    durable (onStaging fun s => { s with originals := s.originals.insert sequence bytes })
    let (records, report) ← convertItems (PageScanner.new bytes).items.1 state.report
    let store ← appendConverted store records
    let staging ← staged
    let sequences ← lift staging.chain.segmentSequences
    let originals := state.originals ++ [Blake3.hash bytes]
    let state : Checkpoint :=
      { state with
        originals := originals
        frontier := frontierOf staging.chain sequences
        report := { report with
          sourceSegments := originals.length
          sourceBytes := saturatingAdd report.sourceBytes bytes.length } }
    save state
    convertSegments source rest store state

/-- `copy_tree`. -/
def copyTree : List (String × Option Bytes) → Fallible IoError Disk Unit
  | [] => return ()
  | (path, file) :: rest => do
    checkCancel
    match file with
    | none => throw (invalid "migration auxiliary evidence contains a symlink or special file")
    | some bytes =>
      durable (onStaging fun s => { s with auxiliary := s.auxiliary.insert path bytes })
      copyTree rest

/-- `scope::migrate` into the staging directory. -/
def copyPolicy [ScopeJson] (source : Source) : Fallible IoError Disk Unit := do
  let disk ← get
  set { disk with script := { disk.script with policies := disk.script.policies.tail } }
  let staging ← staged
  let (faults, cancels) := disk.script.policies.headD ([], [])
  let (result, files) :=
    (migrateScope source.root cancels).exec { staging.policy with faults := faults }
  modify (onStaging fun s => { s with policy := { files with faults := [] } })
  lift result

/-! ## Verification -/

/-- `hash_record`. -/
def hashRecord (record : Record) : Except IoError Bytes :=
  if 2 ^ 64 ≤ record.data.length then
    .error ⟨.other, "out of range integral type conversion attempted"⟩
  else .ok (record.flags :: (leBytes 8 record.data.length ++ record.data))

/-- The digest of some records, in order. -/
def recordsDigest (records : List Record) : Except IoError Digest := do
  let parts ← records.mapM hashRecord
  return Blake3.hash parts.flatten

/-- Look for a cancellation at every record. -/
def checkCancels (records : List Record) : Fallible IoError Disk Unit :=
  forM records fun _ => checkCancel

/-- `transformed_digest`. -/
def transformedDigest (d : Directory) : Fallible IoError Disk Digest := do
  let (records, _stats) ← lift (SegmentStore.visitRecords d)
  checkCancels records
  let converted ← lift (records.mapM convertRecord)
  lift (recordsDigest converted)

/-- `encoded_digest`. -/
def encodedDigest (d : Directory) : Fallible IoError Disk Digest := do
  let (records, _stats) ← lift (SegmentStore.visitRecords d)
  checkCancels records
  lift (recordsDigest records)

/-- The canonical envelope of a record, or its own bytes if it does not decode. -/
def canonicalRecord (record : Record) : Except IoError Record :=
  match (decodeOp record.data : Except PostcardError (Op P)) with
  | .error _ => .ok record
  | .ok op => do
    let encoded ← (encodeOp op).mapError PostcardError.other
    return ⟨record.flags, encoded⟩

/-- `semantic_digest`. -/
def semanticDigest [SemanticHash] (d : Directory) : Fallible IoError Disk Digest := do
  let (records, _stats) ← lift (SegmentStore.visitRecords d)
  forM d.segments.keys fun _ => checkCancel
  let canonical ← lift (records.mapM canonicalRecord)
  let parts ← lift (canonical.mapM hashRecord)
  return SemanticHash.hash parts.flatten

/-- The bytes of all segments. -/
def segmentBytes (d : Directory) : ℕ := (d.segments.toList.map fun r => r.2.bytes.length).sum

/-! ## Publication -/

/-- The marker is removed once the published directory is durable. -/
def removeMarker : Fallible IoError Disk Unit := do
  durable id
  durable (onDestination fun s => { s with checkpoint := none })
  durable id

/-- `finish_publication`. -/
def finishPublication [SemanticHash] (source : Source) (published : Staging) :
    Fallible IoError Disk MigrationReport :=
  match published.checkpoint with
  | none => throw ⟨.alreadyExists, "migration destination already exists"⟩
  | some state => do
    if state.source ≠ source.path ∨ state.version ≠ 1 ∨ !state.complete
        ∨ state.transform ≠ none then
      throw (invalid "existing destination is not a verified migration awaiting publication")
    let digest ← if state.exactDigest then encodedDigest published.chain
      else semanticDigest published.chain
    if some digest ≠ state.report.semanticDigest then
      throw (invalid "published migration no longer matches its verified digest")
    removeMarker
    return state.report

/-- The part of `migrate` after the conversion: verify, and rename. -/
def publish (source : Source) (state : Checkpoint) :
    Fallible IoError Disk MigrationReport := do
  checkCancel
  let original ← transformedDigest source.root.chain
  let staging ← staged
  let migrated ← encodedDigest staging.chain
  if original ≠ migrated then
    throw (invalid "migrated records differ from the complete source history")
  let state : Checkpoint :=
    { state with
      complete := true
      report := { state.report with
        semanticDigest := some original
        destinationBytes := min (segmentBytes staging.chain) u64Max } }
  save state
  durable (onStaging fun s => { s with manifest := some state })
  let disk ← get
  if disk.destination.isSome then
    throw (invalid "migration destination appeared during conversion")
  durable fun disk => { disk with staging := none, destination := disk.staging }
  removeMarker
  return state.report

/-- The part of `migrate` that works on the staging directory. -/
def convert [ScopeJson] (source : Source) : Fallible IoError Disk MigrationReport := do
  durable fun disk => { disk with staging := some (disk.staging.getD {}) }
  let state ← checkpoint source.path
  if state.originals ≠ [] ∧ state.transform ≠ none then
    throw (invalid "migration staging uses another record converter")
  let state := { state with transform := none, exactDigest := true }
  durable id
  let sequences ← lift source.root.chain.segmentSequences
  if sequences.length < state.originals.length then
    throw (invalid "migration source lost segments")
  verifyOriginals source 0 state.originals
  rollback state.frontier
  let store ← openMigration
  let state ← convertSegments source (sequences.drop state.originals.length) store state
  modify (onStaging fun s => { s with chain := { s.chain with lock := .free } })
  copyTree source.auxiliary
  copyPolicy source
  publish source state

/-- A writer lock that is held is dropped. -/
def released (s : Staging) : Staging :=
  { s with chain := { s.chain with lock := if s.chain.lock = .held then .free else s.chain.lock } }

/-- The writer lock of the staging directory is released when a run ends, however it ends. -/
def releasing {α : Type} (m : Fallible IoError Disk α) : Fallible IoError Disk α :=
  of fun disk =>
    let run := m.exec disk
    (run.1, run.2.onStaging released)

/-- `migrate`. -/
def migrate [ScopeJson] [SemanticHash] (source : Source) :
    Fallible IoError Disk MigrationReport := do
  let disk ← get
  match disk.destination with
  | some published => finishPublication source published
  | none =>
    if source.root.chain.lock = .held then
      throw ⟨.wouldBlock, "lock acquisition failed because the operation would block"⟩
    releasing (convert source)

/-- The disk after some runs of `migrate`, from a disk without staging directory or destination. -/
def runs [ScopeJson] [SemanticHash] (source : Source) (scripts : List Script) : Disk :=
  scripts.foldl (fun disk script => ((migrate source).exec { disk with script := script }).2) {}

end EditChain.Migration
