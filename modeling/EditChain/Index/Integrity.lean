import EditChain.Index.Chain

/-!
# Integrity audits

Explicit full replay and content verification, outside of the incremental path: an audit builds the
state anew, compares the published state and the one of the handle with it, and looks at every
content reference of every retained record.
-/

namespace EditChain.Index

open Core Fallible Store
open Std (TransOrd)

/-- A missing, invalid, or unsupported content reference in a persisted record. -/
@[ext] structure ContentIssue (Ref : Type) where
  /-- Operation identity, including quarantined identities. -/
  operation : OpId
  /-- Exact record variant containing the reference. -/
  location : OpRecordLocation
  reference : Ref
  /-- Verified outcome; never `available`. -/
  state : ContentState
deriving DecidableEq, Repr

/-- Comparison with a fresh canonical replay and full referenced-blob verification. -/
structure IntegrityReport (Ref : Type) where
  /-- Fresh counts from canonical records, independent of the checkpoint. -/
  chain : ChainReadStats
  /-- Whether indexed results and retained record variants match current storage. -/
  indexMatches : Bool
  /-- A derived-page or saved-frontier error encountered during comparison. -/
  indexError : Option String
  /-- Content problems from both accepted and quarantined record variants. -/
  contentIssues : List (ContentIssue Ref)

/-- `is_clean`. -/
def IntegrityReport.isClean {Ref : Type} (report : IntegrityReport Ref) : Bool :=
  report.indexMatches && report.indexError.isNone && report.chain.quarantined == 0
    && report.chain.undecodable == 0 && report.chain.incompleteTails == 0
    && report.contentIssues.isEmpty

variable {Op Ref Key σ : Type} [Schema Op] [Checksum] [IndexSchema Op Ref Key] [DecidableEq Key]
  [Ord Ref] [TransOrd Ref] (source : Ref → Fallible IoError σ ContentState)

namespace State

/-- The availability of a reference: indexed, or looked up for a variant that is not accepted. -/
def availability (state : State Op Ref Key) (reference : Ref) : Fallible IoError σ ContentState :=
  match state.content.status reference with
  | some found => return found
  | none => source reference

/-- The references of one record that are not available. -/
def recordIssues (state : State Op Ref Key) (id : OpId) (location : OpRecordLocation) :
    List Ref → Fallible IoError σ (List (ContentIssue Ref))
  | [] => return []
  | reference :: rest => do
    let found ← state.availability source reference
    let issues ← recordIssues state id location rest
    if found = .available then return issues
    else return ⟨id, location, reference, found⟩ :: issues

/-- The loop of `content_issues` over the retained records. -/
def variantIssues (state : State Op Ref Key) (d : Directory) :
    List (OpId × OpRecordLocation) → Fallible IoError σ (List (ContentIssue Ref))
  | [] => return []
  | (id, location) :: rest => do
    let op : Op ← lift (readOpAt d location)
    let issues ← recordIssues source state id location (IndexSchema.references op)
    return issues ++ (← variantIssues state d rest)

/-- `content_issues`; the identities of a chain are in order. -/
def contentIssues (state : State Op Ref Key) (d : Directory) :
    Fallible IoError σ (List (ContentIssue Ref)) :=
  variantIssues source state d (state.tail.chain.identities.flatMap fun id =>
    (state.tail.chain.recordLocations id).map (id, ·))

end State

namespace ChainIndex

variable [∀ state expected : State Op Ref Key, Decidable (state.Matches expected)]

/-- What an error says. -/
def errorText {α : Type} : Except IoError α → Option String
  | .ok _ => none
  | .error error => some error.text

omit [DecidableEq Key] in
/-- The comparison of the published root and of the handle with what was built; a damaged page stops
it. -/
def comparison (root : String) (d : Directory) (damage : Option IoError)
    (expected : State Op Ref Key) (session : Session Op Ref Key) : Except IoError Bool := do
  damage.elim (.ok ()) .error
  let published ← session.saved.elim (.error Directory.notFound) .ok
  published.tail.resume root d
  return decide (published.Matches expected) && decide (session.index.state.Matches expected)

/-- `verify_integrity`. -/
def verifyIntegrity (root name : String) (d : Directory) (damage : Option IoError)
    (session : Session Op Ref Key) : Fallible IoError σ (IntegrityReport Ref) := do
  let expected : State Op Ref Key ← State.build source root d name
  let comparison := comparison root d damage expected session
  return {
    chain := expected.tail.chain.stats
    indexMatches := comparison.toOption.getD false
    indexError := errorText comparison
    contentIssues := ← expected.contentIssues source d }

end ChainIndex
end EditChain.Index
