import EditChain.Core.Ids
import EditChain.Index.Chain

/-!
# Identities by their prefixes

How the index finds the identities that a hexadecimal prefix may stand for, how a query resolves to
one of them, and how an identity is abbreviated. Sorted sequences are cut to two before they are
merged: two candidates are enough to see that a prefix is ambiguous.
-/

namespace EditChain.Index

open Core Fallible Store
open Migration (AddressHash)
open Std (ExtTreeMap ExtTreeSet TransOrd)

/-- Result of resolving an identity in one chain. -/
inductive IdResolution where
  /-- No retained identity has the requested prefix. -/
  | missing
  /-- Two matching identities prove ambiguity; the list is bounded. -/
  | ambiguous (ids : List OpId)
  /-- One complete canonical identity. -/
  | found (id : OpId)
deriving DecidableEq, Repr

/-- The identities of `range(lower..=upper)`. -/
def within (bounds : OpId × OpId) (ids : List OpId) : List OpId :=
  ids.filter fun id => bounds.1 ≤ id ∧ id ≤ bounds.2

/-- A sorted set of identities, extended by others. -/
def extend (set : ExtTreeSet OpId) (ids : List OpId) : ExtTreeSet OpId :=
  ids.foldl (fun set id => set.insert id) set

variable {Op Ref Key : Type} [Ord Ref]

namespace ChainIndex

variable (index : ChainIndex Op Ref Key)

/-- `id_candidates`: at most two are read, and two means ambiguous. -/
def idCandidates (query : IdQuery) : List OpId :=
  let candidates := extend ∅ ((within query.bounds index.state.identities.toList).take 2)
  let candidates := extend candidates ((within query.bounds index.state.aliases.keys).take 2)
  candidates.toList.take 2

/-- `alias_candidates`: the conversion targets of an old address. -/
def aliasCandidates (id : OpId) : List OpId :=
  match index.state.aliases[id]? with
  | none => []
  | some ids => ids.toList.take 2

/-- `retains_id`: whether an accepted or quarantined identity is retained. -/
def retainsId (id : OpId) : Bool := index.state.identities.contains id

variable [AddressHash]

/-- The loop of `short_id` over the lengths of prefixes. -/
def shortIdLoop (id : OpId) (full : Bytes) : List ℕ → Bytes
  | [] => full
  | length :: rest =>
    if full.length < length then full
    else
      match IdQuery.parse (full.take length) with
      | none => full
      | some query =>
        if index.idCandidates query = [id] then full.take length else shortIdLoop id full rest

/-- `short_id`. -/
def shortId (id : OpId) : Bytes := index.shortIdLoop id (displayId id) (List.range' 12 52)

end ChainIndex

/-- Indexed engine queries. -/
structure ChainQueries (Op Ref Key : Type) [Ord Ref] where
  index : ChainIndex Op Ref Key

namespace ChainQueries

variable (queries : ChainQueries Op Ref Key)

/-- `resolve_alias`. -/
def resolveAlias (id : OpId) : IdResolution :=
  if queries.index.retainsId id then .found id
  else
    match queries.index.aliasCandidates id with
    | [] => .found id
    | [mapped] => .found mapped
    | multiple => .ambiguous multiple

/-- `resolve_id`: full identities, legacy addresses and unique hexadecimal prefixes. -/
def resolveId (query : IdQuery) : IdResolution :=
  match query.full with
  | some id => queries.resolveAlias id
  | none =>
    match queries.index.idCandidates query with
    | [] => .missing
    | [id] => queries.resolveAlias id
    | candidates => .ambiguous candidates

end ChainQueries
end EditChain.Index
