import EditChain.Core.Basic
import EditChain.IndexPages.Ordered
import Mathlib.Order.Nat

/-!
# Changes between accepted revisions

The index keeps a bounded journal of the changes of its accepted set. A consumer that is at an
earlier revision reads on from there, a bounded number of changes at a time, as long as the journal
still covers what came after it. Positions are 64 bits wide.
-/

namespace EditChain.Index

open IndexPages

/-- Opaque index generation and position. Rebuilding starts a new generation. -/
@[ext] structure IndexRevision where
  generation : String := ""
  /-- Last recorded change in this generation, independent of operation identities. -/
  position : ℕ := 0
deriving DecidableEq, Repr

/-- Effect of one accepted-state change on a dependent index. -/
inductive IndexChangeKind where
  /-- An operation was admitted to the accepted set. -/
  | added
  /-- Conflicting representations removed an operation from the accepted set. -/
  | removed
  /-- Referenced content changed availability without changing operation bytes. -/
  | content
deriving DecidableEq, Repr

/-- One identity requiring reconciliation against the declared index snapshot. -/
structure IndexChange where
  operation : OpId
  kind : IndexChangeKind
deriving DecidableEq, Repr

/-- Bounded changes through one fixed accepted-state revision. -/
structure IndexChanges where
  /-- Revision against which the consumer must resolve the returned identities. -/
  revision : IndexRevision
  /-- Resume here after applying this batch. -/
  next : IndexRevision
  /-- Changes in journal order; repeated identities are intentional. -/
  changes : List IndexChange
  /-- This batch reaches the declared revision. -/
  complete : Bool
deriving DecidableEq, Repr

/-- `RETAINED_CHANGES`. -/
def retainedChanges : ℕ := 100000

/-- The largest position. -/
def positionMax : ℕ := 2 ^ 64 - 1

/-- The journal. -/
structure ChangeLog where
  revision : IndexRevision := {}
  entries : OrderedMap ℕ IndexChange := {}

namespace ChangeLog

/-- `initialize`: name the generation, unless it has a name. The name is made of the time, the
process and a counter. -/
def nameGeneration (log : ChangeLog) (name : String) : ChangeLog × Bool :=
  if log.revision.generation ≠ "" then (log, false)
  else ({ log with revision.generation := name }, true)

/-- The loop of `append` that drops the oldest changes. -/
def trim : ℕ → OrderedMap ℕ IndexChange → OrderedMap ℕ IndexChange
  | 0, entries => entries
  | fuel + 1, entries =>
    if retainedChanges < entries.len then
      match entries.firstKeyValue with
      | none => entries
      | some (key, _) => trim fuel (entries.remove key).1
    else entries

/-- `append`: every removal makes the map smaller, so that its length is fuel enough. -/
def append (log : ChangeLog) (change : IndexChange) : Except IoError ChangeLog :=
  if positionMax < log.revision.position + 1 then
    .error ⟨.other, "index revision exhausted"⟩
  else
    let position := log.revision.position + 1
    let entries := (log.entries.insert position change).1
    .ok ⟨{ log.revision with position := position }, trim entries.len entries⟩

/-- Append one change after the other. -/
def appendAll : List IndexChange → ChangeLog → Except IoError ChangeLog
  | [], log => .ok log
  | change :: changes, log => do
    let log ← log.append change
    appendAll changes log

/-- `since`. -/
def since (log : ChangeLog) (after : IndexRevision) (limit : ℕ) :
    Except IoError (Option IndexChanges) :=
  if limit < 1 ∨ 10000 < limit then
    .error ⟨.invalidInput, "change limit must be between 1 and 10000"⟩
  else if after.generation ≠ log.revision.generation
      ∨ log.revision.position < after.position
      ∨ log.entries.firstKeyValue.any fun first =>
        decide (min (after.position + 1) positionMax < first.1) then
    .ok none
  else
    let taken := (log.entries.range (.excluded after.position) .unbounded).takeFront limit
    let next := { after with position := (taken.getLast?.map Prod.fst).getD after.position }
    .ok (some {
      revision := log.revision
      next := next
      changes := taken.map Prod.snd
      complete := decide (next = log.revision) })

/-- Follow the pages of a journal until one is complete, with a limit of its own for each. -/
def follow (log : ChangeLog) (limits : ℕ → ℕ) :
    ℕ → IndexRevision → Except IoError (Option (List IndexChange))
  | 0, _ => .ok none
  | fuel + 1, after => do
    match ← log.since after (limits fuel) with
    | none => return none
    | some page =>
      if page.complete then return some page.changes
      else
        match ← follow log limits fuel page.next with
        | none => return none
        | some rest => return some (page.changes ++ rest)

end ChangeLog
end EditChain.Index
