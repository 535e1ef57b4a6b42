import EditChain.Store.Scan

/-!
# Chain directories

A chain directory holds the segment files `000000.eclog`, `000001.eclog`, …, the packing marker and
the writer lock. Files are kept with what the reader's frontier check looks at: identity, length
and modification time.
-/

namespace EditChain.Store

open Std (ExtTreeMap)

/-- The number of segment sequences of a `u32`. -/
def sequenceLimit : ℕ := 2 ^ 32

/-- A segment file. -/
structure SegmentFile where
  bytes : Bytes
  /-- Device and inode. -/
  identity : ℕ × ℕ
  modified : ℕ
deriving DecidableEq, Repr

/-- The state of `.writer.lock`. -/
inductive WriterLock where
  | missing
  | free
  | held
deriving DecidableEq, Repr

/-- A chain directory. -/
@[ext] structure Directory where
  segments : ExtTreeMap ℕ SegmentFile
  /-- The contents of `.segment-layout`. -/
  packingMarker : Option Bytes
  lock : WriterLock
  /-- Whether `.migration.json` exists. -/
  migrating : Bool
  /-- The rejection of a segment file that is not named canonically, if there is one. -/
  misnamed : Option IoError

namespace Directory

/-- A directory that was never written, or does not exist. -/
def empty : Directory := ⟨∅, none, .missing, false, none⟩

/-- `ErrorKind::NotFound`, with the text of the operating system. -/
def notFound : IoError := ⟨.notFound, "No such file or directory (os error 2)"⟩

/-- `fs::read` of a segment. -/
def read (d : Directory) (sequence : ℕ) : Except IoError Bytes :=
  match d.segments[sequence]? with
  | some file => .ok file.bytes
  | none => .error notFound

/-- The numbers are `0, 1, …` without a gap. -/
def contiguous : ℕ → List ℕ → Bool
  | _, [] => true
  | expected, actual :: rest =>
    if expected < sequenceLimit ∧ expected = actual then contiguous (expected + 1) rest else false

/-- Enumerate the contiguous, canonically named segment sequence. -/
def segmentSequences (d : Directory) : Except IoError (List ℕ) :=
  match d.misnamed with
  | some error => .error error
  | none =>
    if contiguous 0 d.segments.keys then .ok d.segments.keys
    else .error (invalid "segment sequence has a gap")

end Directory
end EditChain.Store
