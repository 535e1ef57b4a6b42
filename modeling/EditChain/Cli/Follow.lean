import EditChain.Engine.History

/-!
# Subscriptions

Index refresh subscriptions include late lower identities, conflicts and late blobs: a snapshot of
the accepted history in pages, and then one line for each refresh that changes something. The clock,
cancellation and the limits on the number of lines only end a subscription.
-/

namespace EditChain.Cli

open Core Fallible Store Index
open Engine (EncodedRecord HistoryEntry Lookup QueryPage)
open Std (TransOrd)

/-- One line of a subscription. -/
inductive FollowEvent (Op Ref : Type) where
  | snapshot (page : QueryPage (HistoryEntry Op Ref))
  | ready (stats : ChainReadStats)
  | change (added : List (Lookup (HistoryEntry Op Ref)))
      (removed : List (OpId × List EncodedRecord))
      (contentChanged : List (Lookup (HistoryEntry Op Ref))) (stats : ChainReadStats)

namespace Follow

variable {Op Ref Key σ : Type} [Schema Op] [Checksum] [Blake3] [IndexSchema Op Ref Key]
  [DecidableEq Key] [Ord Ref] [TransOrd Ref]

omit [Schema Op] [DecidableEq Key] in
/-- `initial`: the accepted history in pages of 1000. -/
def initial (queries : ChainQueries Op Ref Key) (d : Directory) :
    Except IoError (List (FollowEvent Op Ref)) := do
  let pages ← queries.followHistory d none (fun _ => 1000) ((queries.candidates none).length + 1) 0
    none
  return pages.map .snapshot

omit [Schema Op] [DecidableEq Key] in
/-- The variants of an identity that was removed. -/
def variantsOf (queries : ChainQueries Op Ref Key) (d : Directory) (id : OpId) :
    Except IoError (OpId × List EncodedRecord) := do
  return (id, ← queries.recordVariants d id)

omit [Schema Op] [DecidableEq Key] in
/-- The line for a refresh. -/
def change (queries : ChainQueries Op Ref Key) (d : Directory) (delta : IndexDelta) :
    Except IoError (FollowEvent Op Ref) := do
  let added ← delta.added.mapM (queries.operation d)
  let contentChanged ← delta.contentChanged.toList.mapM (queries.operation d)
  let removed ← delta.removed.toList.mapM (variantsOf queries d)
  return .change added removed contentChanged queries.index.state.tail.chain.stats

variable (source : Ref → Fallible IoError σ ContentState)

/-- What is printed before the loop of `run`. -/
def begin (noInitial : Bool) (around : Surroundings σ) :
    Fallible IoError (Session Op Ref Key) (List (FollowEvent Op Ref)) := do
  let _changes ← ChainIndex.refresh source around
  let session ← get
  let pages ← if noInitial then pure [] else lift (initial ⟨session.index⟩ around.directory)
  return pages ++ [.ready session.index.state.tail.chain.stats]

/-- One round of the loop of `run`. -/
def poll (around : Surroundings σ) :
    Fallible IoError (Session Op Ref Key) (List (FollowEvent Op Ref)) := do
  let delta ← ChainIndex.refresh source around
  if delta.added.isEmpty && delta.removed.isEmpty && delta.contentChanged.isEmpty then return []
  else
    let session ← get
    let line ← lift (change ⟨session.index⟩ around.directory delta)
    return [line]

end Follow

/-! ## Subscribers -/

/-- What a subscriber knows of each identity. -/
abbrev View (Op Ref : Type) := OpId → Option (HistoryEntry Op Ref)

namespace View

variable {Op Ref : Type} [Schema Op]

/-- An entry takes the place of an older one. -/
def remember (view : View Op Ref) (entry : HistoryEntry Op Ref) : View Op Ref :=
  Function.update view (Schema.id entry.operation) (some entry)

omit [Schema Op] in
/-- A removed identity is forgotten. -/
def forget (view : View Op Ref) (removed : OpId × List EncodedRecord) : View Op Ref :=
  Function.update view removed.1 none

omit [Schema Op] in
/-- The entries among the answers of lookups. -/
def found : List (Lookup (HistoryEntry Op Ref)) → List (HistoryEntry Op Ref)
  | [] => []
  | .found entry :: rest => entry :: found rest
  | .missing :: rest | .conflicted _ :: rest => found rest

/-- What one line tells. -/
def read (view : View Op Ref) : FollowEvent Op Ref → View Op Ref
  | .snapshot page => page.items.foldl remember view
  | .ready _ => view
  | .change added removed contentChanged _ =>
    (found added ++ found contentChanged).foldl remember (removed.foldl forget view)

/-- What the lines so far tell. -/
def ofLines (lines : List (FollowEvent Op Ref)) : View Op Ref := lines.foldl read fun _ => none

end View
end EditChain.Cli
