import EditChain.Store.Tail

/-!
# The replication corpus

Replication retains exact encoded records under keys that pair the operation's identity with the
BLAKE3 digest of the bytes. Keys are ordered by identity first, so that the variants of an identity
form a range.
-/

namespace EditChain.Sync

open Core Fallible Store
open Std (ExtTreeMap)

variable {Op : Type} [Schema Op] [Blake3]

/-- Identity of one exact representation, including quarantined variants. -/
@[ext] structure RecordKey where
  id : OpId
  /-- BLAKE3 of the exact encoded operation bytes. -/
  digest : Digest
deriving DecidableEq, Repr

namespace RecordKey

/-- The derived order: by identity, then by digest. -/
instance : Ord RecordKey := ⟨compareLex (compareOn id) (compareOn digest)⟩

instance : Std.TransOrd RecordKey :=
  inferInstanceAs (Std.TransCmp (compareLex (compareOn id) (compareOn digest)))

instance : Std.LawfulEqOrd RecordKey where
  eq_of_compare {a b} h := by
    have hboth := compareLex_eq_eq.mp h
    exact RecordKey.ext (Std.LawfulEqOrd.eq_of_compare hboth.1)
      (Std.LawfulEqOrd.eq_of_compare hboth.2)

end RecordKey

/-- Retained bytes and the segment of their first occurrence. -/
structure RetainedRecord where
  bytes : Bytes
  segment : ℕ
deriving DecidableEq, Repr

/-- The exact evidence retained for replication. -/
structure Corpus where
  records : ExtTreeMap RecordKey RetainedRecord := ∅
  decoded : ℕ := 0

namespace Corpus

/-- The retained keys in an inclusive range, in order. -/
def range (corpus : Corpus) (first last : RecordKey) : List RecordKey :=
  corpus.records.keys.filter fun key => (compare first key).isLE ∧ (compare key last).isLE

/-- `admit_record` of the replication corpus. -/
def admitRecord (op : Op) (encoded : Bytes) (location : OpRecordLocation) :
    Fallible IoError Corpus Admission := do
  modify fun corpus => { corpus with decoded := corpus.decoded + 1 }
  let corpus ← get
  let key : RecordKey := ⟨Schema.id op, Blake3.hash encoded⟩
  match corpus.records[key]? with
  | some previous =>
    if previous.bytes ≠ encoded then throw (invalid "record digest collision")
    return .duplicate
  | none =>
    let first : RecordKey := ⟨Schema.id op, 0⟩
    let last : RecordKey := ⟨Schema.id op, BitVec.allOnes 256⟩
    let admission := if (corpus.range first last).head?.isSome then .conflict else .accepted
    set { corpus with records := corpus.records.insert key ⟨encoded, location.segmentSeq⟩ }
    return admission

end Corpus

instance : TailCorpus Op Corpus where
  empty := {}
  admitRecord _ := Corpus.admitRecord
  -- undecodable records are not exported
  recordUndecodable corpus := corpus
  recordTailChange _ corpus := corpus

/-! ## The retained reader -/

variable [Checksum]

/-- `Tail::open`: poll a fresh frontier until it stays where it is. -/
def openTail (root : String) (d : Directory) : Except IoError (Tail Corpus) := do
  let _sequences ← d.segmentSequences
  let (result, tail) := (Tail.drain d).exec (Tail.empty root)
  let _delta ← result
  return tail

/-- Exact evidence retained across receipts. -/
structure Evidence where
  tail : Tail Corpus
  loaded : Bool

namespace Evidence

/-- Nothing has been read yet. -/
def new (root : String) : Evidence := ⟨Tail.empty root, false⟩

/-- Validate the saved frontier and read on, or read the whole chain once. -/
def refresh (root : String) (d : Directory) : Fallible IoError Evidence Unit := do
  let evidence ← get
  if evidence.loaded then
    lift (evidence.tail.resume root d)
    let _delta ← zoom Evidence.tail (fun tail e => { e with tail := tail }) (Tail.drain d)
  else
    set (Evidence.mk (← lift (openTail root d)) true)

/-- `read`. -/
def read (root : String) (d : Directory) : Fallible IoError Evidence Corpus := do
  refresh root d
  let evidence ← get
  return evidence.tail.chain

/-- The cold read can run before taking the writer lock. -/
def warm (root : String) (d : Directory) : Fallible IoError Evidence Unit := do
  let evidence ← get
  if !evidence.loaded then refresh root d

end Evidence

end EditChain.Sync
