import EditChain.Store.Segment
import EditChain.Sync.Storage

/-!
# Durable export consent

`scope.json` holds the consent of a workspace and its ledgers of received evidence;
`scope-revision` is the small fence that closes earlier sessions when the consent changes. Both are
replaced atomically. The files of a workspace come with a script of what the file system will do,
so that every call may fail at any of its steps, before or after the step takes effect.
-/

namespace EditChain.Sync

open Core Fallible Store
open Std (ExtTreeMap ExtTreeSet)

/-! ## Scopes -/

/-- A selected append cutoff. -/
structure Cutoff where
  firstSegment : ℕ
  selectedAtMs : ℕ
deriving DecidableEq, Repr

/-- The contents of `scope.json`. -/
structure Scope where
  version : ℕ := 1
  space : String
  excluded : ExtTreeSet RecordKey := ∅
  received : ExtTreeSet RecordKey := ∅
  receivedBlobs : ExtTreeSet Digest := ∅
  /-- Exact records this device retained locally before a peer independently supplied the same
  bytes. -/
  locals : ExtTreeSet RecordKey := ∅
  revision : ℕ := 0
  cutoff : Option Cutoff := none

/-- `serde_json::to_vec`: only the length of the encoding matters here. -/
class ScopeJson where
  length : Scope → ℕ

/-- Effective outgoing sharing policy. -/
structure SharingScope where
  space : String
  mode : String
  cutoffMs : Option ℕ
  revision : ℕ
  active : Bool
  legacyExcludedRecords : ℕ
deriving DecidableEq, Repr

namespace Scope

/-- `summary`. -/
def summary (scope : Scope) : SharingScope where
  space := scope.space
  mode :=
    if scope.cutoff.isSome then "from_now"
    else if scope.excluded.isEmpty then "all"
    else "legacy_from_now"
  cutoffMs := scope.cutoff.map Cutoff.selectedAtMs
  revision := scope.revision
  active := true
  legacyExcludedRecords := scope.excluded.size

/-- The segment lies before the selected cutoff. -/
def beforeCutoff (scope : Scope) (segment : ℕ) : Bool :=
  scope.cutoff.any fun cutoff => decide (segment < cutoff.firstSegment)

/-- The record is withheld from peers. -/
def excludes (scope : Scope) (key : RecordKey) (segment : ℕ) : Bool :=
  scope.excluded.contains key || scope.beforeCutoff segment

/-- Largest accepted `scope.json`. -/
def limit : ℕ := 128 * 1024 * 1024

end Scope

/-- `validate_space`. -/
def validateSpace (space : String) : Except IoError Unit :=
  if space.isEmpty ∨ 128 < space.utf8ByteSize
      ∨ ¬ space.toList.all (fun c => c.isAlphanum || c = '-') then
    .error (invalid "invalid collaboration space")
  else .ok ()

/-- The error that asks a session to reconnect. -/
def scopeChanged : IoError := ⟨.other, "sharing scope changed; reconnect"⟩

/-! ## The files of a workspace -/

/-- A fault of an atomic replacement: whether it took effect, and the error it reports. -/
abbrev WriteFault := Option (Bool × IoError)

/-- What the file system will do in the coming calls; where the script ends, everything works. -/
structure Io where
  opens : List SegmentStore.OpenIo := []
  appends : List AppendIo := []
  rotates : List (Option IoError) := []
  syncs : List (Option IoError) := []
  reads : List (Option IoError) := []
  writes : List WriteFault := []
  blobWrites : List WriteFault := []
  /-- Milliseconds since the epoch, for each look at the clock. -/
  clock : List ℕ := []

/-- The files under the root of a workspace. -/
structure Root where
  chain : Directory
  /-- `multiplayer/scope.json`. -/
  scope : Option Scope := none
  /-- `multiplayer/scope-revision`. -/
  revision : Option ℕ := none
  /-- `blobs/`, by content address. -/
  blobs : ExtTreeMap Digest Bytes := ∅
  io : Io := {}

namespace Root

/-- A workspace that was never used. -/
def empty : Root := { chain := Directory.empty }

/-- The next entry of a part of the script. -/
def pop {α : Type} (view : Io → List α) (update : List α → Io → Io) (default : α) :
    Fallible IoError Root α := do
  let root ← get
  set { root with io := update (view root.io).tail root.io }
  return (view root.io).headD default

/-- Fail if reading a file does. -/
def checkRead : Fallible IoError Root Unit := do
  match ← pop Io.reads (fun reads io => { io with reads := reads }) none with
  | some error => throw error
  | none => return ()

/-- Replace a file, unless the file system fails before that. -/
def publish (view : Io → List WriteFault) (update : List WriteFault → Io → Io)
    (effect : Root → Root) : Fallible IoError Root Unit := do
  match ← pop view update none with
  | some (applied, error) =>
    modify fun root => if applied then effect root else root
    throw error
  | none => modify effect

/-- `atomic_write` of metadata. -/
def atomicWrite (effect : Root → Root) : Fallible IoError Root Unit :=
  publish Io.writes (fun writes io => { io with writes := writes }) effect

/-- `Scope::read`. -/
def readScope [ScopeJson] : Fallible IoError Root Scope := do
  checkRead
  let root ← get
  match root.scope with
  | none => throw Directory.notFound
  | some scope =>
    if Scope.limit < ScopeJson.length scope then throw (invalid "scope metadata exceeds limit")
    if scope.version ≠ 1 then throw (invalid "unsupported scope version")
    lift (validateSpace scope.space)
    return scope

/-- `save_scope`. -/
def saveScope [ScopeJson] (scope : Scope) : Fallible IoError Root Unit := do
  if Scope.limit < ScopeJson.length scope then throw (invalid "scope metadata exceeds limit")
  atomicWrite fun root => { root with scope := some scope }

/-- `ensure_revision`. -/
def ensureRevision (expected : ℕ) : Fallible IoError Root Unit := do
  checkRead
  let root ← get
  match root.revision with
  | none => if expected = 0 then return () else throw scopeChanged
  | some revision => if revision = expected then return () else throw scopeChanged

/-- `select`: publish the small fence first, so that a crash before the ledger write closes old
transfers and prevents an unsafe reopen. -/
def select (scope : Scope) (firstSegment : Option ℕ) : Fallible IoError Root Scope := do
  if u64Max < scope.revision + 1 then throw (invalid "scope revision exhausted")
  let now ← pop Io.clock (fun clock io => { io with clock := clock }) 0
  let selected : Scope :=
    { scope with
      revision := scope.revision + 1
      cutoff := firstSegment.map fun segment => ⟨segment, now⟩
      excluded := ∅ }
  atomicWrite fun root => { root with revision := some selected.revision }
  return selected

variable [Blake3]

/-- `BlobStore::write`: keep complete bytes under their address; existing bytes must match. -/
def writeBlob (bytes : Bytes) : Fallible IoError Root Unit := do
  let root ← get
  match root.blobs[Blake3.hash bytes]? with
  | some existing =>
    if existing ≠ bytes then throw (invalid "existing blob does not match its content address")
    publish Io.blobWrites (fun writes io => { io with blobWrites := writes }) id
  | none =>
    publish Io.blobWrites (fun writes io => { io with blobWrites := writes })
      fun root => { root with blobs := root.blobs.insert (Blake3.hash bytes) bytes }

end Root
end EditChain.Sync
