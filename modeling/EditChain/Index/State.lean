import EditChain.Index.Changes
import EditChain.Lib.Outcome
import EditChain.Store.Indexed
import Mathlib.Data.Finmap

/-!
# The chain index

The index follows a chain with a retained frontier and derives from it what its queries read: the
accepted operations with their locations, secondary postings, and the availability of the content
that operations refer to. A refresh works on a copy of the state, publishes the copy as a new
checkpoint, and only then puts it in the place of the old one. Persistent maps are used as maps, and
a set that is not there is an empty one. What reads content may have a state of its own.
-/

namespace EditChain.Index

open Core Fallible Store
open Std (ExtTreeMap ExtTreeSet TransOrd LawfulEqOrd)

/-- What the index takes from an operation: the references to content, the facts it is looked up by,
and the identities of items and aliases. -/
class IndexSchema (Op : Type) (Ref Key : outParam Type) where
  references : Op → List Ref
  keys : Op → List Ref → List Key
  items : Op → List OpId
  aliases : Op → List OpId

/-! ## Content -/

/-- Verified availability at the index's last successful refresh or rebuild. -/
inductive ContentState where
  /-- Full address and any recorded length were verified. -/
  | available
  /-- Referenced content has not arrived. -/
  | missing
  /-- Stored bytes do not match their address or recorded length. -/
  | corrupt
  /-- The storage adapter cannot resolve this identity. -/
  | unresolvable
deriving DecidableEq, Repr

/-- The availability of one reference and the operations that have it. -/
structure Dependency where
  state : ContentState
  owners : ExtTreeSet OpId := ∅

/-- Content dependencies and those that are not available yet. -/
structure ContentIndex (Ref : Type) [Ord Ref] where
  entries : ExtTreeMap Ref Dependency := ∅
  pending : ExtTreeSet Ref := ∅

namespace ContentIndex

variable {Ref : Type} [Ord Ref] [TransOrd Ref] {σ : Type}
  (source : Ref → Fallible IoError σ ContentState)

/-- The part of `add` for a reference that is not indexed yet. -/
def discover (index : ContentIndex Ref) (reference : Ref) (reads : ℕ) :
    Fallible IoError σ (ContentIndex Ref × ℕ) := do
  if reference ∈ index.entries then return (index, reads)
  else
    let state ← source reference
    return ({
      entries := index.entries.insert reference { state := state }
      pending := if state ≠ .available then index.pending.insert reference else index.pending },
      reads + 1)

/-- `add`. -/
def add (index : ContentIndex Ref) (reference : Ref) (owner : OpId) (reads : ℕ) :
    Fallible IoError σ (ContentIndex Ref × ℕ) := do
  let (index, reads) ← index.discover source reference reads
  return ({ index with
    entries := index.entries.modify reference fun entry =>
      { entry with owners := entry.owners.insert owner } }, reads)

/-- `remove`. -/
def remove (index : ContentIndex Ref) (reference : Ref) (owner : OpId) : ContentIndex Ref :=
  match index.entries[reference]? with
  | none => index
  | some entry =>
    let owners := entry.owners.erase owner
    if owners.isEmpty then
      { entries := index.entries.erase reference, pending := index.pending.erase reference }
    else { index with entries := index.entries.insert reference { entry with owners := owners } }

/-- `status`, without the reference itself. -/
def status (index : ContentIndex Ref) (reference : Ref) : Option ContentState :=
  index.entries[reference]?.map Dependency.state

/-- One round of the loop of `refresh`. -/
def resolve (index : ContentIndex Ref) (reference : Ref) (state : ContentState)
    (changed : ExtTreeSet OpId) : ContentIndex Ref × ExtTreeSet OpId :=
  let pending :=
    if state = .available then index.pending.erase reference else index.pending
  match index.entries[reference]? with
  | none => ({ index with pending := pending }, changed)
  | some entry =>
    if entry.state ≠ state then
      ({ entries := index.entries.insert reference { entry with state := state }
         pending := pending },
        entry.owners.toList.foldl (fun changed id => changed.insert id) changed)
    else ({ index with pending := pending }, changed)

/-- The loop of `refresh`. -/
def refreshLoop : List Ref → ContentIndex Ref → ExtTreeSet OpId → ℕ →
    Fallible IoError σ (ContentIndex Ref × ExtTreeSet OpId × ℕ)
  | [], index, changed, reads => return (index, changed, reads)
  | reference :: rest, index, changed, reads => do
    let state ← source reference
    let (index, changed) := index.resolve reference state changed
    refreshLoop rest index changed (reads + 1)

/-- `refresh`: retry what is not available. -/
def refresh (index : ContentIndex Ref) (reads : ℕ) :
    Fallible IoError σ (ContentIndex Ref × ExtTreeSet OpId × ℕ) :=
  refreshLoop source index.pending.toList index ∅ reads

/-- `matches`: the same references with the same availability and owners, and the same pending. -/
def Matches (index other : ContentIndex Ref) : Prop :=
  index.entries = other.entries ∧ index.pending = other.pending

end ContentIndex

/-! ## Postings -/

/-- The accepted operations under each key that one of them has. -/
abbrev Postings (Key : Type) : Type := Finmap fun _ : Key => ExtTreeSet OpId

namespace Postings

variable {Key : Type} [DecidableEq Key] (postings : Postings Key)

/-- What `lookup` reads under a key. -/
def owners (key : Key) : ExtTreeSet OpId :=
  (postings.lookup key).getD ∅

/-- One round of the loop of `add`. -/
def post (owner : OpId) (key : Key) : Postings Key :=
  postings.insert key ((postings.owners key).insert owner)

/-- One round of the loop of `remove`: a key goes with the last of its owners. -/
def unpost (owner : OpId) (key : Key) : Postings Key :=
  match postings.lookup key with
  | none => postings
  | some owners =>
    let owners := owners.erase owner
    if owners.isEmpty then postings.erase key else postings.insert key owners

end Postings

/-! ## States -/

variable {Op Ref Key : Type} [Schema Op] [Checksum] [IndexSchema Op Ref Key] [DecidableEq Key]
  [Ord Ref] [TransOrd Ref]

/-- The part of a checkpoint that is derived from the chain. -/
structure State (Op Ref Key : Type) [Ord Ref] where
  changes : ChangeLog := {}
  tail : Tail (IndexedChain Op)
  records : ExtTreeMap OpId OpRecordLocation := ∅
  identities : ExtTreeSet OpId := ∅
  aliases : ExtTreeMap OpId (ExtTreeSet OpId) := ∅
  items : ExtTreeSet OpId := ∅
  postings : Postings Key := ∅
  content : ContentIndex Ref := {}

namespace State

/-- `remember`. -/
def remember (state : State Op Ref Key) (op : Op) : State Op Ref Key :=
  { state with
    items := (IndexSchema.items op).foldl (fun items id => items.insert id) state.items
    aliases := (IndexSchema.aliases op).foldl (fun aliases id =>
      aliases.insert id ((aliases.getD id ∅).insert (Schema.id op))) state.aliases }

/-- `remember_conflicts`. -/
def rememberConflicts (d : Directory) : List OpRecordLocation → State Op Ref Key →
    Except IoError (State Op Ref Key)
  | [], state => .ok state
  | location :: rest, state => do
    let op ← readOpAt d location
    rememberConflicts d rest (state.remember op)

variable {σ : Type} (source : Ref → Fallible IoError σ ContentState)

/-- The references of an operation enter the content index. -/
def addContent (owner : OpId) : List Ref → ContentIndex Ref → ℕ →
    Fallible IoError σ (ContentIndex Ref × ℕ)
  | [], content, reads => return (content, reads)
  | reference :: rest, content, reads => do
    let (content, reads) ← content.add source reference owner reads
    addContent owner rest content reads

/-- `add`. -/
def add (state : State Op Ref Key) (op : Op) (location : OpRecordLocation) (reads : ℕ) :
    Fallible IoError σ (State Op Ref Key × ℕ) := do
  let state := state.remember op
  let references := IndexSchema.references op
  let (content, reads) ← addContent source (Schema.id op) references state.content reads
  return ({ state with
    content := content
    postings := (IndexSchema.keys op references).foldl (fun postings key =>
      postings.post (Schema.id op) key) state.postings
    records := state.records.insert (Schema.id op) location }, reads)

/-- Add one operation after the other. -/
def addAll : List (Op × OpRecordLocation) → State Op Ref Key → ℕ →
    Fallible IoError σ (State Op Ref Key × ℕ)
  | [], state, reads => return (state, reads)
  | (op, location) :: rest, state, reads => do
    let (state, reads) ← state.add source op location reads
    addAll rest state reads

omit [Checksum] in
/-- `remove`. -/
def remove (state : State Op Ref Key) (op : Op) : State Op Ref Key :=
  let references := IndexSchema.references op
  { state with
    postings := (IndexSchema.keys op references).foldl (fun postings key =>
      postings.unpost (Schema.id op) key) state.postings
    content := references.foldl (fun content reference =>
      content.remove reference (Schema.id op)) state.content }

/-- The loop of `apply` over the identities that were retracted. -/
def retract (d : Directory) : List OpId → State Op Ref Key → Except IoError (State Op Ref Key)
  | [], state => .ok state
  | id :: rest, state =>
    match state.records[id]? with
    | none => retract d rest state
    | some location => do
      let op ← readOpAt d location
      retract d rest ({ state with records := state.records.erase id }.remove op)

/-- `apply`. -/
def apply (d : Directory) (delta : ChainDelta Op) (state : State Op Ref Key) (reads : ℕ) :
    Fallible IoError σ (State Op Ref Key × ExtTreeSet OpId × ℕ) := do
  let state := { state with
    identities := delta.added.keys.foldl (fun ids id => ids.insert id)
      (delta.removed.toList.foldl (fun ids id => ids.insert id) state.identities) }
  let state ← lift (retract d delta.removed.toList state)
  let state ← lift (rememberConflicts d
    (delta.removed.toList.flatMap state.tail.chain.recordLocations) state)
  let (content, changed, reads) ← state.content.refresh source reads
  let (state, reads) ← addAll source (delta.added.toList.map Prod.snd)
    { state with content := content } reads
  return (state, changed, reads)

/-- `admission_matches`. -/
def AdmissionMatches (state expected : State Op Ref Key) : Prop :=
  state.tail.chain.stats = expected.tail.chain.stats
    ∧ state.tail.chain.identities.length = expected.tail.chain.identities.length
    ∧ ∀ id ∈ expected.tail.chain.identities,
      state.tail.chain.get id = expected.tail.chain.get id
        ∧ state.tail.chain.recordLocations id = expected.tail.chain.recordLocations id

/-- `matches`: the same derived facts, and the same admission of records. -/
structure Matches (state expected : State Op Ref Key) : Prop where
  items : state.items = expected.items
  aliases : state.aliases = expected.aliases
  identities : state.identities = expected.identities
  records : state.records = expected.records
  postings : state.postings = expected.postings
  content : state.content.Matches expected.content
  admission : state.AdmissionMatches expected

end State
end EditChain.Index
