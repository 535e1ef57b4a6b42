import EditChain.Sync.Adapter
import EditChain.Sync.Scope

/-!
# The local replica

`Replica` shares the history of a workspace within one approved collaboration space. Every
transaction holds the writer lock; received records enter the ledger before they enter the log, and
a record that a peer introduced opens only content that a peer supplied.
-/

namespace EditChain.Sync

open Core Fallible Store
open Std (ExtTreeMap ExtTreeSet)

variable {Op : Type} [Schema Op] [Blake3] [Checksum] [ScopeJson]

/-- The segment size of a store that is opened without options. -/
def defaultSegmentBytes : ℕ := 32 * 1024 * 1024

/-- The path of the workspace, as the retained reader checks it. -/
def rootPath : String := "root"

/-- What a replica holds in memory. -/
structure Replica where
  space : String
  evidence : Evidence
  scopeRevision : ℕ := 0

/-- A replica and the files it works on. -/
structure Workspace where
  root : Root
  replica : Replica

/-- `permits_blob`: a received record opens only received content. -/
def Snapshot.permitsBlob (snapshot : Snapshot) (key : RecordKey) (hash : Digest) : Bool :=
  !snapshot.received.contains key || snapshot.receivedBlobs.contains hash

/-- The records of a corpus that pass a filter. Retained records derive their keys, so that the
second test passes. -/
def Corpus.share (corpus : Corpus) (permits : RecordKey → RetainedRecord → Bool) :
    ExtTreeMap RecordKey Bytes :=
  corpus.records.filterMap fun key record =>
    if permits key record ∧ RecordKey.fromEncoded record.bytes = .ok key then some record.bytes
    else none

/-- Retain validated bytes under their key. -/
def Snapshot.insertValid (snapshot : Snapshot) (record : RecordKey × Bytes) : Snapshot :=
  if h : RecordKey.fromEncoded record.2 = .ok record.1 then snapshot.insert record.1 record.2 h
  else snapshot

namespace Replica

/-! ## Transactions -/

/-- Work on the files. -/
def onRoot {α : Type} (m : Fallible IoError Root α) : Fallible IoError Workspace α :=
  zoom Workspace.root (fun root w => { w with root := root }) m

/-- Work on the retained reader. -/
def onEvidence {α : Type} (m : Directory → Fallible IoError Evidence α) :
    Fallible IoError Workspace α := do
  let w ← get
  zoom (fun w => w.replica.evidence)
    (fun evidence w => { w with replica := { w.replica with evidence := evidence } })
    (m w.root.chain)

/-- Put another chain directory in the place of the old one. -/
def withChain (chain : Directory) (w : Workspace) : Workspace :=
  { w with root := { w.root with chain := chain } }

/-- `crate::writer` and the scope of the writer it returns: the lock is released at the end,
whatever happens. -/
def locked {α : Type} (body : Fallible IoError (Workspace × SegmentStore) α) :
    Fallible IoError Workspace α := do
  let io ← onRoot (Root.pop Io.opens (fun opens io => { io with opens := opens }) {})
  of fun w =>
    match SegmentStore.openInner false defaultSegmentBytes io w.root.chain with
    | (.error error, chain) => (.error error, withChain chain w)
    | (.ok store, chain) =>
      let run := body.exec (withChain chain w, store)
      (run.1, withChain (SegmentStore.close ⟨run.2.1.root.chain, run.2.2⟩) run.2.1)

/-- Work on the workspace inside a transaction. -/
def inside {α : Type} (m : Fallible IoError Workspace α) :
    Fallible IoError (Workspace × SegmentStore) α :=
  zoom Prod.fst (fun w t => (w, t.2)) m

/-- Call the writer of a transaction. -/
def onWriter (m : Fallible IoError Writer Unit) : Fallible IoError (Workspace × SegmentStore) Unit :=
  zoom (fun t => ⟨t.1.root.chain, t.2⟩) (fun w t => (withChain w.directory t.1, w.store)) m

/-- `append_page`. -/
def appendPage (page : Page) : Fallible IoError (Workspace × SegmentStore) Unit := do
  let io ← inside (onRoot (Root.pop Io.appends (fun appends io => { io with appends := appends }) {}))
  onWriter (SegmentStore.appendPage page io)

/-- `rotate`. -/
def rotate : Fallible IoError (Workspace × SegmentStore) Unit := do
  let fault ← inside (onRoot (Root.pop Io.rotates (fun rotates io => { io with rotates := rotates }) none))
  onWriter (SegmentStore.rotate fault)

/-- `sync_all`: make every readable segment durable. -/
def syncAll : Fallible IoError Workspace Unit := do
  let w ← get
  let _sequences ← lift w.root.chain.segmentSequences
  match ← onRoot (Root.pop Io.syncs (fun syncs io => { io with syncs := syncs }) none) with
  | some error => throw error
  | none => return ()

/-! ## Consent -/

/-- `check_space`. -/
def checkSpace (scope : Scope) : Fallible IoError Workspace Unit := do
  let w ← get
  if scope.space ≠ w.replica.space then
    throw (invalid "workspace belongs to a different collaboration space")

/-- `ensure_scope`. -/
def ensureScope : Fallible IoError Workspace Unit := do
  let w ← get
  onRoot (Root.ensureRevision w.replica.scopeRevision)

/-- `load_scope`. -/
def loadScope : Fallible IoError Workspace Scope := do
  ensureScope
  let scope ← onRoot Root.readScope
  checkSpace scope
  let w ← get
  if scope.revision ≠ w.replica.scopeRevision then throw scopeChanged
  return scope

/-- `ensure_snapshot`. -/
def ensureSnapshot (snapshot : Snapshot) : Fallible IoError Workspace Unit := do
  ensureScope
  let w ← get
  if snapshot.scopeRevision ≠ w.replica.scopeRevision then throw scopeChanged

/-- Persist an explicit boundary, so that a later reopen cannot append private history below the
cutoff. -/
def boundary (backfill : Bool) : Fallible IoError (Workspace × SegmentStore) Unit := do
  if !backfill then
    rotate
    appendPage (Page.new 0)

/-- The part of `set_sharing_scope` under the writer lock. -/
def selectScope (backfill : Bool) : Fallible IoError (Workspace × SegmentStore) Scope := do
  let scope ← inside (onRoot Root.readScope)
  inside (checkSpace scope)
  boundary backfill
  let (_, store) ← get
  let selected ← inside (onRoot (Root.select scope (if backfill then none else some store.nextSeq)))
  inside (onRoot (Root.saveScope selected))
  return selected

/-- Explicitly select all retained history or a fresh append cutoff. -/
def setSharingScope (backfill : Bool) : Fallible IoError Workspace SharingScope := do
  let scope ← locked (selectScope backfill)
  modify fun w => { w with replica := { w.replica with scopeRevision := scope.revision } }
  return scope.summary

/-- The part of `open` under the writer lock: an existing scope persists, and a new one captures an
exclusion baseline unless backfill was chosen. -/
def bindSpace (backfill : Bool) : Fallible IoError Workspace Unit := do
  let w ← get
  match w.root.scope with
  | some _ =>
    let scope ← onRoot Root.readScope
    checkSpace scope
    modify fun w => { w with replica := { w.replica with scopeRevision := scope.revision } }
  | none =>
    if backfill then onRoot (Root.saveScope { space := w.replica.space })
    else
      let evidence ← onEvidence (Evidence.read rootPath)
      onRoot (Root.saveScope
        { space := w.replica.space, excluded := ExtTreeSet.ofList evidence.records.keys })

/-- `Replica::open`. -/
def openSpace (space : String) (backfill : Bool) : Fallible IoError Root Replica :=
  of fun root =>
    match validateSpace space with
    | .error error => (.error error, root)
    | .ok () =>
      let run := (locked (inside (bindSpace backfill))).exec ⟨root, ⟨space, .new rootPath, 0⟩⟩
      (run.1.map fun _ => run.2.replica, run.2.root)

/-! ## Records -/

/-- Freeze the durable records that may be offered, or all that need not be downloaded again. -/
def freeze (receiving : Bool) : Fallible IoError Workspace Snapshot := do
  syncAll
  let scope ← loadScope
  let evidence ← onEvidence (Evidence.read rootPath)
  return {
    records := evidence.share fun key record =>
      !scope.excludes key record.segment || (receiving && scope.received.contains key)
    received := scope.received
    receivedBlobs := scope.receivedBlobs
    scopeRevision := scope.revision
    derived := by
      intro key bytes h
      simp only [Corpus.share, ExtTreeMap.getElem?_filterMap', Option.bind_eq_some_iff] at h
      obtain ⟨record, -, h⟩ := h
      split at h
      · next hpermits =>
        cases h
        exact hpermits.2
      · cases h }

/-- `snapshot_for`. -/
def snapshotFor (receiving : Bool) : Fallible IoError Workspace Snapshot := do
  ensureScope
  onEvidence (Evidence.warm rootPath)
  locked (inside (freeze receiving))

/-- The variables of a receipt: the ledger, the keys to append, their records, and whether the
ledger changed. -/
structure Receipt where
  scope : Scope
  staged : ExtTreeSet RecordKey := ∅
  page : Page := Page.new 0
  changed : Bool := false

/-- An independently supplied exact baseline record is now shared evidence, but cannot expose this
device's preexisting blobs; its local provenance is kept separately. -/
def Receipt.share (receipt : Receipt) (known : Corpus) (key : RecordKey) : Receipt :=
  let excluded := receipt.scope.excluded.contains key
  let withheld := known.records[key]?.any fun record => receipt.scope.beforeCutoff record.segment
  let scope := { receipt.scope with excluded := receipt.scope.excluded.erase key }
  if excluded || withheld then
    if scope.received.contains key then
      { receipt with scope := scope, changed := receipt.changed || excluded }
    else
      { receipt with
        scope := { scope with
          received := scope.received.insert key
          locals := scope.locals.insert key }
        changed := true }
  else { receipt with scope := scope }

/-- A record that is not known is entered in the ledger and staged once. -/
def Receipt.stage (receipt : Receipt) (known : Corpus) (key : RecordKey) (bytes : Bytes) :
    Receipt :=
  if known.records.contains key || receipt.staged.contains key then receipt
  else
    { receipt with
      staged := receipt.staged.insert key
      scope := { receipt.scope with received := receipt.scope.received.insert key }
      page := receipt.page.addRecord 0 bytes }

/-- One record of a receipt. -/
def Receipt.take (known : Corpus) (receipt : Receipt) (record : RecordKey × Bytes) : Receipt :=
  (receipt.share known record.1).stage known record.1 record.2

/-- The loop over a receipt. -/
def Receipt.takeAll (known : Corpus) (scope : Scope) (records : List (RecordKey × Bytes)) :
    Receipt :=
  records.foldl (Receipt.take known) { scope := scope }

/-- Refuse a snapshot of another revision. -/
def ensureSnapshots : Option Snapshot → Fallible IoError Workspace Unit
  | some snapshot => ensureSnapshot snapshot
  | none => pure ()

/-- Enter the ledger. -/
def saveLedger (receipt : Receipt) : Fallible IoError (Workspace × SegmentStore) Unit := do
  if receipt.changed ∨ receipt.page.records ≠ [] then
    inside (onRoot (Root.saveScope receipt.scope))

/-- Enter the log. -/
def appendStaged (receipt : Receipt) : Fallible IoError (Workspace × SegmentStore) Unit := do
  if receipt.page.records ≠ [] then appendPage receipt.page

/-- Re-establish durability before acknowledging what was already there. -/
def settle (receipt : Receipt) (count : ℕ) : Fallible IoError (Workspace × SegmentStore) Unit := do
  if receipt.staged.size < count then inside syncAll

/-- The part of `ingest_into` under the writer lock. -/
def receive (records : List (RecordKey × Bytes)) (snapshot : Option Snapshot) :
    Fallible IoError (Workspace × SegmentStore) Scope := do
  let known ← inside (onEvidence (Evidence.read rootPath))
  let scope ← inside loadScope
  inside (ensureSnapshots snapshot)
  let receipt := Receipt.takeAll known scope records
  saveLedger receipt
  appendStaged receipt
  settle receipt records.length
  return receipt.scope

/-- `ingest_into`, up to the update of the snapshot. -/
def ingestInto (records : List (RecordKey × Bytes)) (snapshot : Option Snapshot) :
    Fallible IoError Workspace Scope := do
  lift (validateRecords records)
  onEvidence (Evidence.warm rootPath)
  locked (receive records snapshot)

/-- The receiver's view after a receipt. -/
def receivedInto (records : List (RecordKey × Bytes)) (scope : Scope) (snapshot : Snapshot) :
    Snapshot :=
  { records.foldl Snapshot.insertValid snapshot with
    received := scope.received
    receivedBlobs := scope.receivedBlobs }

/-- `ingest_records`, from outside a session. -/
def ingestRecords (records : List (RecordKey × Bytes)) :
    Fallible IoError Workspace (List RecordKey) := do
  let _scope ← ingestInto records none
  return records.map Prod.fst

/-! ## Content -/

variable [ContentSchema Op]

/-- `record_references`. -/
def recordReferences (encoded : Bytes) : Except IoError (ExtTreeMap Digest (List ℕ)) := do
  let op ← (Schema.decodeOp encoded).mapError PostcardError.other
  return ContentSchema.references op

/-- `references`. -/
def references (snapshot : Snapshot) (key : RecordKey) :
    Fallible IoError Workspace (ExtTreeMap Digest (List ℕ)) := do
  ensureSnapshot snapshot
  match snapshot.record key with
  | none => throw (invalid "record outside scope")
  | some encoded => lift (recordReferences encoded)

/-- `read_content`. -/
def readContent (references : ExtTreeMap Digest (List ℕ)) (hash : Digest) :
    Fallible IoError Workspace (Option Bytes) := do
  if ¬ references.contains hash then return none
  else
    onRoot Root.checkRead
    let w ← get
    match w.root.blobs[hash]? with
    | none => return none
    | some bytes =>
      if ¬ matchesLen references hash bytes.length then
        throw (invalid "blob reference length mismatch")
      if maxObjectBytes < bytes.length then throw (invalid "blob length exceeds limit")
      if Blake3.hash bytes ≠ hash then throw (invalid "stored blob hash or length mismatch")
      return some bytes

/-- `read_blob`. -/
def readBlob (snapshot : Snapshot) (key : RecordKey) (hash : Digest) :
    Fallible IoError Workspace (Option Bytes) := do
  ensureSnapshot snapshot
  if !snapshot.permitsBlob key hash then return none
  else
    let references ← references snapshot key
    readContent references hash

/-- `blob_hashes`. -/
def blobHashes (snapshot : Snapshot) (key : RecordKey) :
    Fallible IoError Workspace (ExtTreeSet Digest) := do
  let references ← references snapshot key
  return ExtTreeSet.ofList references.keys

/-- The retained record that a received blob is for. -/
def blobOwner (scope : Scope) (evidence : Corpus) (key : RecordKey) : Except IoError Bytes :=
  match evidence.records[key]? with
  | some record =>
    if !scope.excludes key record.segment || scope.received.contains key then .ok record.bytes
    else .error (invalid "record outside scope")
  | none => .error (invalid "record outside scope")

/-- The part of `ingest_blob` under the writer lock. -/
def publishBlob (key : RecordKey) (hash : Digest) (bytes : Bytes) :
    Fallible IoError Workspace Unit := do
  let scope ← loadScope
  let evidence ← onEvidence (Evidence.read rootPath)
  let encoded ← lift (blobOwner scope evidence key)
  let references ← lift (recordReferences encoded)
  if ¬ matchesLen references hash bytes.length then
    throw (invalid "blob is not referenced with this length")
  onRoot (Root.writeBlob bytes)
  onRoot (Root.saveScope { scope with receivedBlobs := scope.receivedBlobs.insert hash })

/-- `ingest_blob`. -/
def ingestBlob (key : RecordKey) (hash : Digest) (bytes : Bytes) :
    Fallible IoError Workspace Unit := do
  if maxObjectBytes < bytes.length ∨ Blake3.hash bytes ≠ hash then
    throw (invalid "received blob hash or length mismatch")
  onEvidence (Evidence.warm rootPath)
  locked (inside (publishBlob key hash bytes))

/-- A replica as the storage of a session; `confirm_blob` is the trait's own. -/
instance : ReplicationStorage Workspace where
  namespaceOf w := w.replica.space
  ensureScope := ensureScope
  snapshot := snapshotFor false
  receivingSnapshot := snapshotFor true
  ingestRecords records := of fun t =>
    let run := (ingestInto records (some t.2)).exec t.1
    (run.1.map fun _ => (), run.2, match run.1 with
      | .ok scope => receivedInto records scope t.2
      | .error _ => t.2)
  blobHashes := blobHashes
  readBlob := readBlob
  ingestBlob := ingestBlob

end Replica
end EditChain.Sync
