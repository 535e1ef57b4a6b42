import EditChain.Core.Basic

/-!
# Canonical admission of immutable operation bytes

`OpSet` retains every distinct encoding of every operation identity. An identity is accepted only
while it has exactly one representation; a second one quarantines it for good.

Ordered maps and sets of the standard library are the extensional trees of `Std`, which iterate
in key order. Identities and digests are 32 bytes, compared from the first byte on; they are kept
as one 256-bit word, whose order is the same. Counters of in-memory items are natural numbers.
-/

namespace EditChain

open Std (ExtTreeMap ExtTreeSet)

namespace Core

/-- Outcome of adding one record to the evidence set. -/
inductive Admission where
  /-- The identity has exactly one known representation. -/
  | accepted
  /-- These exact bytes were already retained. -/
  | duplicate
  /-- New conflicting bytes were retained; all versions of the identity are inert. -/
  | conflict
deriving DecidableEq, Repr

/-- The byte representations of one identity. -/
abbrev Variants := ExtTreeSet Bytes

/-- Grow-only evidence keyed by operation identity and exact encoded bytes. No entry is ever
created without a representation. -/
@[ext] structure OpSet where
  evidence : ExtTreeMap OpId Variants
  nonempty : ∀ (id : OpId) (variants : Variants), evidence[id]? = some variants → variants ≠ ∅

namespace OpSet

/-- An empty evidence set. -/
def new : OpSet where
  evidence := ∅
  nonempty := by simp

instance : Inhabited OpSet := ⟨new⟩

/-- The retained representations of an identity, `entry(id).or_default()`. -/
def variantsOf (s : OpSet) (id : OpId) : Variants := s.evidence[id]?.getD ∅

/-- Inspect admission without retaining bytes. -/
def classify (s : OpSet) (id : OpId) (encoded : Bytes) : Admission :=
  match s.evidence[id]? with
  | none => .accepted
  | some variants => if encoded ∈ variants then .duplicate else .conflict

/-- The evidence after one more record. -/
def retain (s : OpSet) (id : OpId) (encoded : Bytes) : OpSet where
  evidence := s.evidence.insert id ((s.variantsOf id).insert encoded)
  nonempty := by
    intro j variants h
    rw [ExtTreeMap.getElem?_insert] at h
    split at h
    · simp only [Option.some.injEq] at h
      exact h ▸ ExtTreeSet.insert_ne_empty
    · exact s.nonempty j variants h

/-- Retain one distinct record and update its identity's admission status. -/
protected def insert (s : OpSet) (id : OpId) (encoded : Bytes) : Admission × OpSet :=
  let variants := s.variantsOf id
  if encoded ∈ variants then (.duplicate, s.retain id encoded)
  else if (variants.insert encoded).size = 1 then (.accepted, s.retain id encoded)
  else (.conflict, s.retain id encoded)

/-- Whether the identity is accepted. -/
def contains (s : OpSet) (id : OpId) : Bool :=
  s.evidence[id]?.any (·.size = 1)

/-- Accepted identity/byte pairs in key order. -/
def iter (s : OpSet) : List (OpId × Bytes) :=
  s.evidence.toList.filterMap fun (id, variants) =>
    if variants.size = 1 then variants.min?.map (id, ·) else none

/-- Number of accepted identities. -/
def len (s : OpSet) : ℕ := s.iter.length

/-- Whether there are no accepted operations; conflict evidence may remain. -/
def isEmpty (s : OpSet) : Bool := s.iter.head?.isNone

/-- Every distinct record, accepted or conflicted, in identity/byte order. -/
def evidenceList (s : OpSet) : List (OpId × Bytes) :=
  s.evidence.toList.flatMap fun (id, variants) => variants.toList.map (id, ·)

/-- Conflicted identities with all retained representations. -/
def conflicts (s : OpSet) : List (OpId × Variants) :=
  s.evidence.toList.filter fun (_, variants) => 1 < variants.size

/-- Insertion outcomes of a merge. -/
@[ext] structure MergeCounts where
  accepted : ℕ := 0
  duplicates : ℕ := 0
  conflicts : ℕ := 0
deriving DecidableEq, Repr

/-- Count one insertion outcome. -/
def MergeCounts.add (c : MergeCounts) : Admission → MergeCounts
  | .accepted => { c with accepted := c.accepted + 1 }
  | .duplicate => { c with duplicates := c.duplicates + 1 }
  | .conflict => { c with conflicts := c.conflicts + 1 }

/-- Insert one record of the other set and count its outcome. -/
def mergeStep (state : OpSet × MergeCounts) (record : OpId × Bytes) : OpSet × MergeCounts :=
  let (admission, s) := state.1.insert record.1 record.2
  (s, state.2.add admission)

/-- Merge all evidence, including every quarantined variant, counting the insertion outcomes. -/
def merge (s other : OpSet) : OpSet × MergeCounts :=
  other.evidenceList.foldl mergeStep (s, {})

/-- Insert records in order, collecting the outcomes. -/
def insertAll (s : OpSet) : List (OpId × Bytes) → List Admission × OpSet
  | [] => ([], s)
  | (id, encoded) :: rest =>
    let (admission, s₁) := s.insert id encoded
    let (admissions, s₂) := s₁.insertAll rest
    (admission :: admissions, s₂)

end OpSet
end Core
end EditChain
