import EditChain.Migration.Record
import EditChain.Sync.Scope

/-!
# Translating the sharing policy

The wire migration rewrites record bytes, and with them the record keys that a sharing policy
lists. `scope::migrate` reads the whole source chain once, translates the listed keys that occur in
it, and replaces a segment cutoff by the exact keys below it.
-/

namespace EditChain.Migration

open Fallible Store Sync
open Std (ExtTreeMap ExtTreeSet)

/-- The policy files of the staging directory, and what the file system does to the coming
writes. -/
structure PolicyFiles where
  /-- `migration-v1/original/multiplayer/scope.json`. -/
  original : Option Scope := none
  /-- `multiplayer/scope-revision`. -/
  revision : Option ℕ := none
  /-- `multiplayer/scope.json`. -/
  scope : Option Scope := none
  faults : List WriteFault := []

/-- The error of a cancelled migration. -/
def interrupted : IoError :=
  ⟨.interrupted, "migration interrupted; rerun the same command to resume"⟩

/-- `atomic_write`, which may fail before or after it takes effect. -/
def PolicyFiles.write (effect : PolicyFiles → PolicyFiles) : Fallible IoError PolicyFiles Unit := do
  let files ← get
  set { files with faults := files.faults.tail }
  match files.faults.headD none with
  | some (applied, error) =>
    modify fun files => if applied then effect files else files
    throw error
  | none => modify effect

variable {P : Payloads} [AddressHash] [Postcard P] [Blake3] [Checksum]

/-- The variables of the translation. -/
structure Translation where
  translated : ExtTreeMap RecordKey RecordKey := ∅
  excludedByCutoff : ExtTreeSet RecordKey := ∅

/-- The key of a migrated record. -/
def newKey (op : Op P) (bytes : Bytes) : Except IoError RecordKey := do
  let migrated ← (migrateRecord bytes).mapError PostcardError.other
  return ⟨op.id, Blake3.hash migrated⟩

/-- One complete record of the source. -/
def translateRecord (scope : Scope) (requested : ExtTreeSet RecordKey) (sequence : ℕ)
    (bytes : Bytes) : Fallible IoError Translation Unit :=
  match (decodeOp bytes : Except PostcardError (Op P)) with
  | .error _ => pure ()
  | .ok op => do
    let old : RecordKey := ⟨op.id, Blake3.hash bytes⟩
    let before := scope.beforeCutoff sequence
    if before || requested.contains old then
      let new ← lift (newKey op bytes)
      modify fun t =>
        { translated := if requested.contains old then t.translated.insert old new else t.translated
          excludedByCutoff :=
            if before then t.excludedByCutoff.insert new else t.excludedByCutoff }

/-- The items of one segment. -/
def translateItems (scope : Scope) (requested : ExtTreeSet RecordKey) (sequence : ℕ) :
    List (Except ScanError ScanItem) → Fallible IoError Translation Unit
  | [] => pure ()
  | .ok (.page _ _) :: rest => translateItems scope requested sequence rest
  | .ok (.record record) :: rest => do
    translateRecord scope requested sequence record.data
    translateItems scope requested sequence rest
  | .error error :: _ =>
    if error.kind = .incompleteTail then pure () else throw (invalid error.display)

/-- The listed segments; a cancellation is noticed before each. -/
def translateSegments (scope : Scope) (requested : ExtTreeSet RecordKey) (d : Directory) :
    List ℕ → List Bool → Fallible IoError Translation Unit
  | [], _ => pure ()
  | sequence :: rest, cancels => do
    if cancels.headD false then throw interrupted
    let bytes ← lift (d.read sequence)
    translateItems scope requested sequence (PageScanner.new bytes).items.1
    translateSegments scope requested d rest cancels.tail

/-- `remap`. -/
def Translation.remap (t : Translation) (keys : ExtTreeSet RecordKey) : ExtTreeSet RecordKey :=
  ExtTreeSet.ofList (keys.toList.map fun key => t.translated[key]?.getD key)

/-- The keys that a scope lists. -/
def listedKeys (scope : Scope) : ExtTreeSet RecordKey :=
  ExtTreeSet.ofList (scope.excluded.toList ++ scope.received.toList ++ scope.locals.toList)

/-- The policy after its keys were translated. -/
def Translation.apply (t : Translation) (scope : Scope) : Scope :=
  { scope with
    excluded := ExtTreeSet.ofList ((t.remap scope.excluded).toList ++ t.excludedByCutoff.toList)
    received := t.remap scope.received
    locals := t.remap scope.locals
    cutoff := none
    revision := scope.revision + 1 }

/-- The fence file agrees with the policy. -/
def fenced (source : Root) (scope : Scope) : Bool :=
  match source.revision with
  | some revision => revision = scope.revision
  | none => scope.revision = 0

/-- `scope::migrate`. -/
def migrateScope [ScopeJson] (source : Root) (cancels : List Bool) :
    Fallible IoError PolicyFiles Unit := do
  match source.scope with
  | none => return ()
  | some scope =>
    if Scope.limit < ScopeJson.length scope then throw (invalid "scope metadata exceeds limit")
    if scope.version ≠ 1 then throw (invalid "unsupported scope version")
    if !fenced source scope then
      throw (invalid "sharing policy has an incomplete revision; repair it before migration")
    PolicyFiles.write fun files => { files with original := some scope }
    let sequences ← lift source.chain.segmentSequences
    let (result, translation) :=
      (translateSegments scope (listedKeys scope) source.chain sequences cancels).exec {}
    lift result
    if u64Max < scope.revision + 1 then throw (invalid "scope revision exhausted")
    let migrated := translation.apply scope
    if Scope.limit < ScopeJson.length migrated then
      throw (invalid "migrated sharing policy exceeds limit")
    PolicyFiles.write fun files => { files with revision := some migrated.revision }
    PolicyFiles.write fun files => { files with scope := some migrated }

end EditChain.Migration
