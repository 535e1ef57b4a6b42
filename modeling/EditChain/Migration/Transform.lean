import EditChain.Migration.Run

/-!
# Converters of records

The verification of a migration under any converter. A converter turns one record into any number of
records, may keep a state of its own, and is run again to verify what was written. The conversion
between the wire formats is the converter without a state that returns one record.
-/

namespace EditChain.Migration

open Fallible Store Disk

/-- `RecordTransform`: what is called for each complete record. -/
structure RecordTransform (τ : Type) where
  convert : Bytes → Fallible IoError τ (List Bytes)

/-- `WireTransform`. -/
def wireTransform {P : Payloads} [AddressHash] [Postcard P] : RecordTransform Unit where
  convert encoded := do
    let converted ← lift ((migrateRecord (P := P) encoded).mapError PostcardError.other)
    return [converted]

namespace RecordTransform

variable {τ : Type} (transform : RecordTransform τ)

/-- Feed the records made of one record to the hasher, which holds what it was fed before. -/
def hashOutputs (flags : UInt8) : List Bytes → Bytes → Except IoError Bytes
  | [], hasher => .ok hasher
  | bytes :: rest, hasher => do
    let part ← hashRecord ⟨flags, bytes⟩
    hashOutputs flags rest (hasher ++ part)

/-- The visitor of `transformed_digest`, over the disk and the state of the converter. -/
def hashConverted : List Record → Bytes → Fallible IoError (Disk × τ) Bytes
  | [], hasher => return hasher
  | record :: rest, hasher => do
    zoom Prod.fst (fun disk s => (disk, s.2)) checkCancel
    let outputs ← zoom Prod.snd (fun state s => (s.1, state)) (transform.convert record.data)
    let hasher ← lift (hashOutputs record.flags outputs hasher)
    hashConverted rest hasher

/-- `transformed_digest`. -/
def transformedDigest [Blake3] [Checksum] (d : Directory) :
    Fallible IoError (Disk × τ) Digest := do
  let (records, _stats) ← lift (SegmentStore.visitRecords d)
  let hasher ← transform.hashConverted records []
  return Blake3.hash hasher

end RecordTransform
end EditChain.Migration
