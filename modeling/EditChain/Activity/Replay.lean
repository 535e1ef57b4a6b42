import EditChain.Activity.Model
import Mathlib.Data.Finset.Sort

/-!
# Replay of content streams

Deterministic replay of explicitly linked content updates. Operations are delivered one by one; a
second, different record under an identity makes the identity inert and quarantines every item and
attempt that one of its variants names. The content of a block is rebuilt from the updates that are
left, along their explicit predecessors. What resolves the bytes of a payload may have a state of
its own.
-/

namespace EditChain.Activity

open Migration (AddressHash)

/-- Rebuilt content of one block in one attempt. -/
structure ContentBlock where
  bytes : Bytes
  complete : Bool
  finished : Bool
  head : OpId
deriving DecidableEq, Repr

/-- Replay rejects ambiguity instead of choosing by hash order or arrival time. -/
inductive ReplayError where
  | invalid (error : ValidationError)
  | conflict (id : OpId)
  | ambiguous (heads : List OpId)
  | wrongPredecessor (id : OpId)
  | cycle (id : OpId)
  | unavailable (id : OpId)
deriving DecidableEq, Repr

/-- The order of identities, as of their bytes. -/
def idLe (a b : OpId) : Prop := a.toNat ≤ b.toNat

instance : DecidableRel idLe := fun a b => Nat.decLe a.toNat b.toNat

instance : IsTrans OpId idLe := ⟨fun _ _ _ h h' => Nat.le_trans h h'⟩

instance : Std.Antisymm idLe := ⟨fun _ _ h h' => BitVec.eq_of_toNat_eq (Nat.le_antisymm h h')⟩

instance : Std.Total idLe := ⟨fun a b => Nat.le_total a.toNat b.toNat⟩

/-! ## Delivery -/

/-- Rebuildable streaming state: a set of identities that is not there is an empty one. -/
structure StreamState where
  records : OpId → Option Operation := fun _ => none
  items : ItemId → Finset OpId := fun _ => ∅
  conflicts : Finset OpId := ∅
  quarantined : ItemId × Option ItemId → Finset OpId := fun _ => ∅

/-- The attempt of a call. -/
def Operation.attempt (record : Operation) : Option ItemId :=
  match record.kind with
  | .tool tool => some tool.attempt
  | _ => none

/-- The item and the attempt that a record names. -/
def Operation.streamKey (record : Operation) : ItemId × Option ItemId :=
  (record.item, record.attempt)

namespace StreamState

/-- `quarantine`. -/
def quarantine (state : StreamState) (record : Operation) : StreamState :=
  { state with
    quarantined := Function.update state.quarantined record.streamKey
      (Insert.insert record.id (state.quarantined record.streamKey)) }

/-- `insert`: accept delivery in any order. -/
def insert [AddressHash] (state : StreamState) (operation : Operation) :
    Except ReplayError Bool × StreamState :=
  match operation.validate with
  | .error error => (.error (.invalid error), state)
  | .ok () =>
    if operation.id ∈ state.conflicts then
      (.error (.conflict operation.id), state.quarantine operation)
    else match state.records operation.id with
      | some existing =>
        if existing = operation then (.ok false, state)
        else
          let state := { state with records := Function.update state.records operation.id none }
          let state := (state.quarantine existing).quarantine operation
          (.error (.conflict operation.id),
            { state with conflicts := Insert.insert operation.id state.conflicts })
      | none =>
        (.ok true, { state with
          items := Function.update state.items operation.item
            (Insert.insert operation.id (state.items operation.item))
          records := Function.update state.records operation.id (some operation) })

/-- Delivery after delivery. -/
def deliver [AddressHash] (state : StreamState) (operations : List Operation) : StreamState :=
  operations.foldl (fun state operation => (state.insert operation).2) state

end StreamState

/-! ## Updates -/

/-- `update`: what a record does to a block in an attempt. -/
def update (record : Operation) (block : ItemId) (attempt : Option ItemId) :
    Option ContentUpdate :=
  match record.kind with
  | .message message =>
    if attempt.isNone then message.blocks.find? fun update => decide (update.block = block)
    else none
  | .tool tool =>
    if attempt = some tool.attempt then tool.output.filter fun update => decide (update.block = block)
    else none
  | _ => none

/-- `finished`. -/
def isFinished (record : Operation) (attempt : Option ItemId) : Bool :=
  match record.kind with
  | .message message => attempt.isNone ∧ message.stage = .finished
  | .tool tool => attempt = some tool.attempt ∧ tool.stage = .finished
  | _ => false

/-- The updates of a block, by identity. -/
abbrev Updates := List (OpId × Operation × ContentUpdate)

namespace Updates

def get (updates : Updates) (id : OpId) : Option (Operation × ContentUpdate) :=
  (updates.find? fun entry => decide (entry.1 = id)).map Prod.snd

def keys (updates : Updates) : List OpId := updates.map Prod.fst

lemma mem_keys_of_get {updates : Updates} {id : OpId} {found : Operation × ContentUpdate}
    (h : updates.get id = some found) : id ∈ updates.keys := by
  unfold get at h
  obtain ⟨entry, hfind, -⟩ := Option.map_eq_some_iff.mp h
  have hid := List.find?_some hfind
  rw [decide_eq_true_eq] at hid
  rw [← hid]
  exact List.mem_map_of_mem (List.mem_of_find?_eq_some hfind)

/-- One more identity leaves fewer to be seen. -/
lemma card_unseen_lt {updates : Updates} {id : OpId} {found : Operation × ContentUpdate}
    (h : updates.get id = some found) {seen : Finset OpId} (hnew : id ∉ seen) :
    (updates.keys.toFinset \ Insert.insert id seen).card < (updates.keys.toFinset \ seen).card := by
  apply Finset.card_lt_card
  rw [Finset.ssubset_iff_of_subset (Finset.sdiff_subset_sdiff (Finset.Subset.refl _)
    (Finset.subset_insert id seen))]
  refine ⟨id, ?_, ?_⟩
  · rw [Finset.mem_sdiff, List.mem_toFinset]
    exact ⟨mem_keys_of_get h, hnew⟩
  · rw [Finset.mem_sdiff, not_and, not_not]
    exact fun _ => Finset.mem_insert_self id seen

section

variable (conflicts : Finset OpId) (records : OpId → Option Operation) (updates : Updates)

/-- The walk of `validate_predecessors` from one update on: the path that it adds to. -/
def walk (done path : Finset OpId) (cursor : Option OpId) : Except ReplayError (Finset OpId) :=
  match cursor with
  | none => .ok path
  | some id =>
    if id ∈ conflicts then .error (.conflict id)
    else if id ∈ done then .ok path
    else match _h : updates.get id with
      | none => if (records id).isSome then .error (.wrongPredecessor id) else .ok path
      | some (_, value) =>
        if _hnew : id ∈ path then .error (.cycle id)
        else walk done (Insert.insert id path) value.previous
termination_by (updates.keys.toFinset \ path).card
decreasing_by exact card_unseen_lt _h _hnew

/-- `validate_predecessors`, from some updates on. -/
def validateFrom (done : Finset OpId) : List OpId → Except ReplayError Unit
  | [] => .ok ()
  | start :: rest => do
    let path ← walk conflicts records updates done ∅ (some start)
    validateFrom (done ∪ path) rest

/-- `validate_predecessors`. -/
def validatePredecessors : Except ReplayError Unit :=
  validateFrom conflicts records updates ∅ updates.keys

end

/-! ## Heads -/

/-- The loop of `ordered_snapshot`: the sequences that were seen, each with its update. -/
def orderFrom (updates : Updates) (recorder : ItemId) :
    List (UInt64 × OpId) → List OpId → Option (List (UInt64 × OpId))
  | ordered, [] => some ordered
  | ordered, id :: heads => do
    let (record, value) ← updates.get id
    if record.recorder ≠ recorder ∨ value.mode ≠ .replace ∨ value.previous.isSome then none
    else
      let sequence ← record.sequence
      if ordered.any fun entry => decide (entry.1 = sequence) then none
      else orderFrom updates recorder ((sequence, id) :: ordered) heads

/-- `last_key_value`: the update with the largest sequence. -/
def lastOf : List (UInt64 × OpId) → Option (UInt64 × OpId)
  | [] => none
  | entry :: ordered =>
    match lastOf ordered with
    | some last => if last.1 < entry.1 then some entry else some last
    | none => some entry

/-- `ordered_snapshot`. -/
def orderedSnapshot (updates : Updates) (heads : List OpId) : Option OpId := do
  let first ← heads.head?
  let (record, _) ← updates.get first
  let ordered ← updates.orderFrom record.recorder [] heads
  let (_, id) ← lastOf ordered
  return id

/-- The updates that no other update names as its predecessor. -/
def heads (updates : Updates) : List OpId :=
  updates.keys.filter fun id => decide (some id ∉ updates.map fun entry => entry.2.2.previous)

/-- The update whose content counts, if there is any update. -/
def selectHead (updates : Updates) : Except ReplayError (Option OpId) :=
  match updates.heads with
  | [] =>
    match updates.keys with
    | [] => .ok none
    | first :: _ => .error (.cycle first)
  | [head] => .ok (some head)
  | heads =>
    match updates.orderedSnapshot heads with
    | some head => .ok (some head)
    | none => .error (.ambiguous heads)

/-! ## Content -/

variable {σ : Type} (resolve : Payload → σ → Option Bytes × σ)

/-- The parts of the content from an update backwards, oldest first, and whether they are all of it.
There is no result when an update is seen again: the loop never ends. -/
def parts (updates : Updates) (seen : Finset OpId) (cursor : Option OpId) (s : σ) :
    Option (Except ReplayError (List Bytes × Bool) × σ) :=
  match cursor with
  | none => some (.ok ([], false), s)
  | some id =>
    match _h : updates.get id with
    | none => some (.ok ([], false), s)
    | some (_, value) =>
      if _hnew : id ∈ seen then none
      else if value.content = .empty then some (.error (.unavailable id), s)
      else
        match resolve value.content s with
        | (none, s) => some (.error (.unavailable id), s)
        | (some bytes, s) =>
          if value.mode = .replace then some (.ok ([bytes], true), s)
          else
            match parts updates (Insert.insert id seen) value.previous s with
            | some (.ok (older, complete), s) => some (.ok (older ++ [bytes], complete), s)
            | some (.error error, s) => some (.error error, s)
            | none => none
termination_by (updates.keys.toFinset \ seen).card
decreasing_by exact card_unseen_lt _h _hnew

end Updates

namespace StreamState

/-- The records of an item that are not inert. -/
def recordsOf (state : StreamState) (item : ItemId) : List Operation :=
  ((state.items item).sort idLe).filterMap state.records

/-- The updates of a block. -/
def updates (state : StreamState) (item block : ItemId) (attempt : Option ItemId) : Updates :=
  (state.recordsOf item).filterMap fun record =>
    (update record block attempt).map fun value => (record.id, record, value)

variable {σ : Type}

/-- `content`: reconstruct one logical block; no result stands for a call that never returns. -/
def content (state : StreamState) (item block : ItemId) (attempt : Option ItemId)
    (resolve : Payload → σ → Option Bytes × σ) (s : σ) :
    Option (Except ReplayError (Option ContentBlock) × σ) :=
  match ((state.quarantined (item, attempt)).sort idLe).head? with
  | some id => some (.error (.conflict id), s)
  | none =>
    let updates := state.updates item block attempt
    match updates.validatePredecessors state.conflicts state.records with
    | .error error => some (.error error, s)
    | .ok () =>
      match updates.selectHead with
      | .error error => some (.error error, s)
      | .ok none => some (.ok none, s)
      | .ok (some head) =>
        match updates.parts resolve ∅ (some head) s with
        | none => none
        | some (.error error, s) => some (.error error, s)
        | some (.ok (parts, complete), s) =>
          some (.ok (some {
            bytes := parts.flatten
            complete := complete
            finished := (state.recordsOf item).any fun record => isFinished record attempt
            head := head }), s)

end StreamState
end EditChain.Activity
