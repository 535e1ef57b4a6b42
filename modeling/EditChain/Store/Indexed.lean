import EditChain.Store.Tail

/-!
# Admission against durable records

`IndexedChain` keeps identities, decoded operations and record locations, and rereads the encoded
bytes of earlier variants from their segments to tell duplicates from conflicts. Its persistent
maps are used as maps.
-/

namespace EditChain.Store

open Core Fallible
open Std (ExtTreeMap)

variable {Op : Type} [Schema Op] [Checksum]

/-- The first record of an identity, and its operation while it is accepted. -/
structure IndexEntry (Op : Type) where
  location : OpRecordLocation
  accepted : Option Op

/-- Resident identities and decoded operations, backed by immutable segment records. -/
structure IndexedChain (Op : Type) where
  entries : ExtTreeMap OpId (IndexEntry Op) := ∅
  conflicts : ExtTreeMap OpId (List OpRecordLocation) := ∅
  stats : ChainReadStats := {}

namespace IndexedChain

/-- Every retained identity, including quarantined ones. -/
def identities (chain : IndexedChain Op) : List OpId := chain.entries.keys

/-- Exact durable locations for every retained variant of an identity. -/
def recordLocations (chain : IndexedChain Op) (id : OpId) : List OpRecordLocation :=
  (chain.entries[id]?.map IndexEntry.location).toList ++ chain.conflicts[id]?.getD []

/-- Whether one of the locations holds exactly these bytes. -/
def holds (d : Directory) (encoded : Bytes) : List OpRecordLocation → Except IoError Bool
  | [] => .ok false
  | location :: rest =>
    if location.dataLen = encoded.length then do
      if (← readEncodedAt d location) = encoded then return true
      holds d encoded rest
    else holds d encoded rest

/-- Classify against exact durable bytes, including every quarantined variant. -/
def classify (chain : IndexedChain Op) (d : Directory) (id : OpId) (encoded : Bytes) :
    Except IoError Admission :=
  match chain.entries[id]? with
  | none => .ok .accepted
  | some entry => do
    if ← holds d encoded (entry.location :: chain.conflicts[id]?.getD []) then return .duplicate
    return .conflict

/-- Read one accepted operation. -/
protected def get (chain : IndexedChain Op) (id : OpId) : Option Op :=
  chain.entries[id]?.bind IndexEntry.accepted

/-- `admit_record` of the index. -/
def admitRecord (d : Directory) (op : Op) (encoded : Bytes) (location : OpRecordLocation) :
    Fallible IoError (IndexedChain Op) Admission := do
  let chain ← get
  let id := Schema.id op
  let admission ← lift (chain.classify d id encoded)
  let stats := { chain.stats with records := chain.stats.records + 1 }
  match admission with
  | .accepted =>
    set { chain with
      entries := chain.entries.insert id ⟨location, some op⟩
      stats := { stats with accepted := stats.accepted + 1 } }
  | .duplicate => set { chain with stats := { stats with duplicates := stats.duplicates + 1 } }
  | .conflict =>
    match chain.entries[id]? with
    | none =>
      set { chain with stats := stats }
      throw ⟨.other, "missing conflicted identity"⟩
    | some entry =>
      let wasAccepted := entry.accepted.isSome
      set { chain with
        entries := chain.entries.insert id { entry with accepted := none }
        conflicts := chain.conflicts.insert id (chain.conflicts[id]?.getD [] ++ [location])
        stats := { stats with
          accepted := if wasAccepted then stats.accepted - 1 else stats.accepted
          quarantined := stats.quarantined + if wasAccepted then 2 else 1 } }
  return admission

end IndexedChain

instance : TailCorpus Op (IndexedChain Op) where
  empty := {}
  admitRecord := IndexedChain.admitRecord
  recordUndecodable chain :=
    { chain with stats := { chain.stats with undecodable := chain.stats.undecodable + 1 } }
  recordTailChange incomplete chain :=
    { chain with stats := { chain.stats with
      incompleteTails :=
        if incomplete then chain.stats.incompleteTails + 1
        else chain.stats.incompleteTails - 1 } }

end EditChain.Store
