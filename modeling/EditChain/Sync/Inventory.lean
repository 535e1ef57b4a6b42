import EditChain.Sync.Storage

/-!
# Parent-first export order

A stable depth-first walk over the sorted keys of a snapshot, with an explicit stack: every variant
of a parent is pushed above its descendants, and a visiting ancestor is not entered again.
-/

namespace EditChain.Sync

open Core Fallible
open Std (ExtTreeMap)

variable {Op : Type} [Schema Op] [Blake3]

/-- The state of a key in the walk: the bytes 0, 1 and 2. -/
inductive Mark where
  | unseen
  | visiting
  | finished
deriving DecidableEq, Repr

/-- The variables of the walk. -/
structure Walk where
  state : List Mark
  ordered : List RecordKey := []
  /-- The stack, its top first; the flag says that the key's parents are done. -/
  pending : List (ℕ × Bool) := []
deriving DecidableEq, Repr

/-- `partition_point` on sorted keys. -/
def partitionPoint (keys : List RecordKey) (p : RecordKey → Bool) : ℕ := (keys.takeWhile p).length

/-- The indices of all variants of an identity. -/
def variantIndices (keys : List RecordKey) (parent : OpId) : List ℕ :=
  let first := partitionPoint keys fun key => decide (key.id < parent)
  let last := partitionPoint keys fun key => decide (key.id ≤ parent)
  List.range' first (last - first)

/-- Push the variants of each parent, so that the last parent's first variant is on top. -/
def pushParents (keys : List RecordKey) (parents : List OpId) (pending : List (ℕ × Bool)) :
    List (ℕ × Bool) :=
  parents.foldl (fun pending parent => (variantIndices keys parent).map (·, false) ++ pending)
    pending

namespace Walk

/-- One entry taken from the stack. -/
def visit (records : ExtTreeMap RecordKey Bytes) (keys : List RecordKey) (index : ℕ)
    (finish : Bool) (walk : Walk) : Except IoError Walk :=
  match keys[index]?, walk.state[index]? with
  | none, _ => .error (invalid "missing inventory key")
  | some _, none => .error (invalid "missing inventory state")
  | some key, some seen =>
    if finish then
      .ok { walk with state := walk.state.set index .finished, ordered := walk.ordered ++ [key] }
    else if seen = .unseen then
      match records[key]? with
      | none => .error (invalid "missing inventory record")
      | some bytes =>
        match Schema.decodeOp bytes with
        | .error error => .error error.other
        | .ok op =>
          .ok { walk with
            state := walk.state.set index .visiting
            pending := pushParents keys (Schema.parentIds op) ((index, true) :: walk.pending) }
    -- a visiting ancestor is a cycle: only that back edge is dropped
    else .ok walk

/-- `while let Some(..) = pending.pop()`, for at most the given number of entries. -/
def drain (records : ExtTreeMap RecordKey Bytes) (keys : List RecordKey) :
    ℕ → Walk → Except IoError Walk
  | 0, walk => .ok walk
  | fuel + 1, walk =>
    match walk.pending with
    | [] => .ok walk
    | (index, finish) :: rest => do
      drain records keys fuel (← visit records keys index finish { walk with pending := rest })

end Walk

/-- The entries that visiting a key for the first time pushes. -/
def pushes (records : ExtTreeMap RecordKey Bytes) (keys : List RecordKey) (key : RecordKey) :
    List (ℕ × Bool) :=
  match records[key]? with
  | none => []
  | some bytes =>
    match Schema.decodeOp bytes with
    | .error _ => []
    | .ok op => pushParents keys (Schema.parentIds op) []

/-- A bound on the entries a walk takes from its stack: one for each key and one for each push. -/
def walkLength (records : ExtTreeMap RecordKey Bytes) (keys : List RecordKey) : ℕ :=
  1 + (keys.map fun key => 1 + (pushes records keys key).length).sum

/-- Walk from one start after another. -/
def walkFrom (records : ExtTreeMap RecordKey Bytes) (keys : List RecordKey) :
    List ℕ → Walk → Except IoError Walk
  | [], walk => .ok walk
  | start :: starts, walk => do
    let walk := { walk with pending := (start, false) :: walk.pending }
    walkFrom records keys starts (← walk.drain records keys (walkLength records keys))

/-- All keys of the records, parents first. -/
def parentFirst (records : ExtTreeMap RecordKey Bytes) : Except IoError (List RecordKey) := do
  let keys := records.keys
  let walk ← walkFrom records keys (List.range keys.length)
    { state := List.replicate keys.length .unseen }
  return walk.ordered

/-- The keys of a snapshot in the order of export. -/
def Snapshot.orderedKeys (snapshot : Snapshot) : Except IoError (List RecordKey) :=
  parentFirst snapshot.records

end EditChain.Sync
