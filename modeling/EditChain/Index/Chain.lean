import EditChain.Index.State

/-!
# The transaction boundary of the index

A handle answers queries from its state. A refresh works on a copy of the state, publishes the copy
as a new checkpoint, and only then puts it in the place of the old one. A publication that fails may
still have replaced the checkpoint on disk; from then on the handle refuses to write until it is
opened again. A damaged page of the checkpoint can stop the work on the copy at any point.
-/

namespace EditChain.Store

open Core Fallible

variable {Op : Type} [Schema Op] [Checksum]

namespace Tail

variable {C : Type} [TailCorpus Op C]

/-- The loop of `open`. -/
def openLoop (d : Directory) : ℕ → Fallible IoError (Tail C) Unit
  | 0 => return ()
  | fuel + 1 => do
    let before ← get
    let _ ← poll d
    let after ← get
    if (before.segment, before.offset) = (after.segment, after.offset) then return ()
    openLoop d fuel

/-- `open`: read all that is there. -/
def openAll (root : String) (d : Directory) : Except IoError (Tail C) := do
  let _ ← d.segmentSequences
  match (openLoop d (totalBytes d + d.segments.size + 2)).exec (empty root) with
  | (.ok (), tail) => .ok tail
  | (.error error, _) => .error error

/-- `drain`, of a copy. -/
def drained (d : Directory) (tail : Tail C) : Except IoError (ChainDelta Op × Tail C) :=
  match (drain d).exec tail with
  | (.ok delta, tail) => .ok (delta, tail)
  | (.error error, _) => .error error

end Tail

namespace IndexedChain

omit [Schema Op] [Checksum] in
/-- `shared_ops`. -/
def sharedOps (chain : IndexedChain Op) : List Op :=
  chain.entries.toList.filterMap (·.2.accepted)

end IndexedChain
end EditChain.Store

namespace EditChain.Index

open Core Fallible Store
open Std (ExtTreeMap ExtTreeSet TransOrd LawfulEqOrd)

variable {Op Ref Key : Type} [Schema Op] [Checksum] [IndexSchema Op Ref Key] [DecidableEq Key]
  [Ord Ref] [TransOrd Ref]

/-- IO performed by an incremental refresh. -/
structure IndexWork where
  records : TailWork := {}
  /-- Distinct reference resolutions, including retries of unresolved content. -/
  contentReads : ℕ := 0

/-- Changes since the handle's previous successful refresh, in the order of identities. -/
structure IndexDelta where
  /-- Newly accepted operations, excluding conflicts in the same refresh. -/
  added : List OpId
  /-- Identities quarantined by conflicting records, including same-batch conflicts. -/
  removed : ExtTreeSet OpId
  /-- Previously accepted operations whose referenced content changed availability. -/
  contentChanged : ExtTreeSet OpId
  work : IndexWork

/-- The changes of a refresh in the order in which the journal gets them. -/
def IndexDelta.changes (delta : IndexDelta) : List IndexChange :=
  delta.added.map (⟨·, .added⟩) ++ delta.removed.toList.map (⟨·, .removed⟩)
    ++ delta.contentChanged.toList.map (⟨·, .content⟩)

namespace State

variable {σ : Type} (source : Ref → Fallible IoError σ ContentState)

/-- The accepted operations of a chain, each at its first location. -/
def located (chain : IndexedChain Op) :
    List Op → Except IoError (List (Op × OpRecordLocation))
  | [] => .ok []
  | op :: rest => do
    let location ← (chain.recordLocations (Schema.id op)).head?.elim
      (.error (invalid "accepted operation has no record location")) .ok
    return (op, location) :: (← located chain rest)

/-- `build`, with the name of the new generation. -/
def build (root : String) (d : Directory) (name : String) :
    Fallible IoError σ (State Op Ref Key) := do
  let tail : Tail (IndexedChain Op) ← lift (Tail.openAll root d)
  let state : State Op Ref Key :=
    { changes := (({} : ChangeLog).nameGeneration name).1
      tail := tail
      identities := tail.chain.identities.foldl (fun ids id => ids.insert id) ∅ }
  let operations ← lift (located tail.chain tail.chain.sharedOps)
  let (state, _) ← addAll source operations state 0
  lift (rememberConflicts d ((tail.chain.identities.filter fun id =>
    (tail.chain.get id).isNone).flatMap tail.chain.recordLocations) state)

/-- What `refresh` does to its copy of the state. -/
def advance (d : Directory) (state : State Op Ref Key) :
    Fallible IoError σ (State Op Ref Key × IndexDelta) := do
  let (records, tail) ← lift (Tail.drained d state.tail)
  let (next, changed, reads) ← State.apply source d records { state with tail := tail } 0
  let delta : IndexDelta :=
    { added := records.added.keys
      removed := records.removed
      contentChanged := changed.filter fun id => !(id ∈ records.added || id ∈ records.removed)
      work := ⟨records.work, reads⟩ }
  let changes ← lift (next.changes.appendAll delta.changes)
  return ({ next with changes := changes }, delta)

/-- The indexed availability of a reference. -/
def statusOf (content : ContentIndex Ref) (reference : Ref) : Except IoError (Ref × ContentState) :=
  match content.status reference with
  | none => .error (invalid "missing indexed content dependency")
  | some status => .ok (reference, status)

/-- `content`: the availability of each reference of an accepted operation. -/
def contentOf (state : State Op Ref Key) (id : OpId) :
    Except IoError (Option (List (Ref × ContentState))) :=
  match state.tail.chain.get id with
  | none => .ok none
  | some op => do
    return some (← (IndexSchema.references op).mapM (statusOf state.content))

/-- The identities that `operations` pages through. -/
def accepted (state : State Op Ref Key) : Set OpId := {id | id ∈ state.records}

end State

/-- `initialize`: the name of a generation, from the time, the process and a counter. -/
def generationName (nanos process counter : ℕ) : String :=
  String.ofList (Nat.toDigits 16 nanos) ++ "-" ++ String.ofList (Nat.toDigits 16 process) ++ "-"
    ++ String.ofList (Nat.toDigits 16 counter)

/-! ## Handles -/

/-- An open index. -/
structure ChainIndex (Op Ref Key : Type) [Ord Ref] where
  state : State Op Ref Key
  needsReopen : Bool := false

/-- An index, with the checkpoint on disk and the handle while it is open. -/
structure Session (Op Ref Key : Type) [Ord Ref] where
  saved : Option (State Op Ref Key)
  index : ChainIndex Op Ref Key

/-- How a publication ends: an error may come before or after the checkpoint was replaced. -/
inductive Publication where
  | done
  | failed (replaced : Bool) (error : IoError)

/-- `Storage::commit`. -/
def commit (outcome : Publication) (state : State Op Ref Key) :
    Fallible IoError (Option (State Op Ref Key)) (State Op Ref Key) :=
  match outcome with
  | .done => do
    set (some state)
    return state
  | .failed replaced error => do
    if replaced then set (some state)
    throw error

/-- What the surroundings contribute to one call: the chain and its content, a damaged page, and how
publications end. -/
structure Surroundings (σ : Type) where
  directory : Directory
  blobs : σ
  damage : Option IoError
  outcome : Publication

namespace ChainIndex

variable {σ : Type} (source : Ref → Fallible IoError σ ContentState)

/-- `revision`. -/
def revision (index : ChainIndex Op Ref Key) : IndexRevision := index.state.changes.revision

/-- `changes_since`. -/
def changesSince (index : ChainIndex Op Ref Key) (after : IndexRevision) (limit : ℕ) :
    Except IoError (Option IndexChanges) :=
  index.state.changes.since after limit

/-- `check_writable`. -/
def checkWritable (index : ChainIndex Op Ref Key) : Except IoError Unit :=
  if index.needsReopen then
    .error ⟨.other, "reopen the chain index after a failed checkpoint publication"⟩
  else .ok ()

/-- `publish`: the handle is fenced while the outcome is uncertain. -/
def publish (outcome : Publication) (state : State Op Ref Key) :
    Fallible IoError (Session Op Ref Key) Unit := do
  modify fun session => { session with index.needsReopen := true }
  let state ← zoom Session.saved (fun saved session => { session with saved := saved })
    (commit outcome state)
  modify fun session => { session with index := ⟨state, false⟩ }

/-- `refresh`. -/
def refresh (around : Surroundings σ) : Fallible IoError (Session Op Ref Key) IndexDelta := do
  let session ← get
  lift session.index.checkWritable
  lift (around.damage.elim (.ok ()) .error)
  let (next, delta) ← lift ((session.index.state.advance source around.directory).exec
    around.blobs).1
  if 0 < delta.work.records.bytesRead ∨ delta.contentChanged.isEmpty = false then
    publish around.outcome next
  return delta

/-- `rebuild`, with the name of the new generation. -/
def rebuild (root name : String) (around : Surroundings σ) :
    Fallible IoError (Session Op Ref Key) ChainReadStats := do
  let session ← get
  lift session.index.checkWritable
  lift (around.damage.elim (.ok ()) .error)
  let rebuilt ← lift ((State.build source root around.directory name).exec around.blobs).1
  publish around.outcome rebuilt
  let session ← get
  return session.index.state.tail.chain.stats

/-- The first part of `open_inner`: the checkpoint, or a new one. -/
def restore (root name : String) (around : Surroundings σ) :
    Fallible IoError (Option (State Op Ref Key)) (State Op Ref Key) := do
  match ← get with
  | some state =>
    lift (state.tail.resume root around.directory)
    let (changes, named) := state.changes.nameGeneration name
    if named then commit around.outcome { state with changes := changes }
    else return { state with changes := changes }
  | none =>
    let state ← lift ((State.build source root around.directory name).exec around.blobs).1
    commit around.outcome state

/-- `open`: the handle begins with a refresh. -/
def openIndex (root name : String) (around again : Surroundings σ) :
    Fallible IoError (Option (State Op Ref Key)) (ChainIndex Op Ref Key) := do
  let state ← restore source root name around
  let saved ← get
  of fun _ =>
    match (refresh source again).exec ⟨saved, ⟨state, false⟩⟩ with
    | (.ok _, session) => (.ok session.index, session.saved)
    | (.error error, session) => (.error error, session.saved)

end ChainIndex

end EditChain.Index
