import EditChain.Engine.HistoryTheorems
import EditChain.Engine.Relationships
import EditChain.Lib.Exploration

/-!
# Ancestor walks are sound and complete

A walk inspects identities one by one, each at most once, and stops within its budget. What it
inspected and what it left at the frontier is reachable along the parents of accepted operations,
and nothing reachable is missing unless the frontier says so.
-/

namespace EditChain.Index

open Core Fallible Store
open Activity (payloads)
open Engine (AncestorGraph EntityRef HistoryEntry Lookup OperationLookup PageRequest
  RecordedRelationship RelationshipKind)
open Migration (AddressHash)
open Std (ExtTreeMap ExtTreeSet LawfulEqOrd TransOrd)

namespace ChainQueries

variable {Ref Key : Type} [AddressHash] [Checksum] [Blake3] [Ord Ref] [TransOrd Ref]
  [IndexSchema (Migration.Op payloads) Ref Key]
  {queries : ChainQueries (Migration.Op payloads) Ref Key} {d : Directory}

/-! ## Relationships -/

omit [Checksum] [Blake3] [Ord Ref] [TransOrd Ref] in
/-- Only parent references are causal. -/
lemma kindRelationships_ne (id : OpId) (kind : Migration.OpKind payloads OpId)
    {relation : EntityRef × EntityRef × RelationshipKind}
    (h : relation ∈ Engine.kindRelationships id kind) :
    relation.2.2 ≠ .causalParent := by
  cases kind with
  | activity record =>
    obtain ⟨field, -, rfl⟩ := List.mem_map.mp h
    exact nofun
  | note targetIds note =>
    obtain ⟨target, -, rfl⟩ := List.mem_map.mp h
    exact nofun
  | gitLink source link =>
    rw [List.mem_singleton.mp h]
    exact nofun
  | gitCommit importedRecord commit =>
    rcases List.mem_append.mp h with hparent | himported
    · obtain ⟨parent, -, rfl⟩ := List.mem_map.mp hparent
      exact nofun
    · obtain ⟨imported, -, rfl⟩ := List.mem_map.mp himported
      exact nofun
  | plain payload =>
    cases payload with
    | session session parent label metadata =>
      obtain ⟨target, -, rfl⟩ := List.mem_map.mp h
      exact nofun
    | _ => cases h

/-- The parent references of an entry. -/
def parentRelationships (entry : HistoryEntry (Migration.Op payloads) Ref) :
    List (RecordedRelationship Ref) :=
  entry.operation.parentIds.map fun parent =>
    ⟨.operation entry.operation.id, .operation parent, .causalParent, entry.recordRef,
      entry.content⟩

omit [Checksum] [Blake3] [Ord Ref] [TransOrd Ref] [IndexSchema (Migration.Op payloads) Ref Key] in
/-- The causal relationships of an entry are its parent references. -/
lemma filter_recordedRelationships (entry : HistoryEntry (Migration.Op payloads) Ref) :
    (Engine.recordedRelationships entry).filter (fun relation =>
      decide (relation.kind = RelationshipKind.causalParent)) = parentRelationships entry := by
  unfold Engine.recordedRelationships parentRelationships
  rw [List.filter_map, List.filter_append, List.filter_eq_self.mpr, List.filter_eq_nil_iff.mpr,
    List.append_nil, List.map_map]
  · rfl
  · intro relation hrelation
    exact fun heq => kindRelationships_ne _ _ hrelation (of_decide_eq_true heq)
  · intro relation hrelation
    obtain ⟨parent, -, rfl⟩ := List.mem_map.mp hrelation
    exact decide_eq_true (rfl : RelationshipKind.causalParent = .causalParent)

/-! ## Walking -/

/-- `parent` is a causal parent of the operation that is accepted under `id`. -/
def Parent (queries : ChainQueries (Migration.Op payloads) Ref Key) (id parent : OpId) : Prop :=
  ∃ op, queries.index.get id = some op ∧ parent ∈ op.parentIds

/-- The parents of a lookup are those of the accepted operation. -/
lemma mem_lookupParents {id parent : OpId}
    {record : Lookup (HistoryEntry (Migration.Op payloads) Ref)}
    (h : queries.operation d id = .ok record) :
    parent ∈ lookupParents record ↔ queries.Parent id parent := by
  unfold Parent
  simp only [get_of_operation h]
  cases record with
  | found entry =>
    constructor
    · intro hmem
      exact ⟨_, ⟨entry, rfl, rfl⟩, hmem⟩
    · intro ⟨op, ⟨other, heq, hop⟩, hmem⟩
      cases heq
      rw [← hop] at hmem
      exact hmem
  | missing =>
    exact ⟨nofun, fun ⟨_, ⟨_, heq, _⟩, _⟩ => by cases heq⟩
  | conflicted variants =>
    exact ⟨nofun, fun ⟨_, ⟨_, heq, _⟩, _⟩ => by cases heq⟩

omit [Checksum] [Blake3] [Ord Ref] [TransOrd Ref] [IndexSchema (Migration.Op payloads) Ref Key] in
lemma mem_pendParents (id : OpId) (visited : ExtTreeMap OpId (OperationLookup Ref))
    (parents : List OpId) (pending : ExtTreeSet OpId) (other : OpId) :
    other ∈ pendParents id visited parents pending
      ↔ other ∈ pending ∨ other ∈ parents ∧ other ≠ id ∧ other ∉ visited := by
  unfold pendParents
  induction parents generalizing pending with
  | nil => simp
  | cons parent rest ih =>
    rw [List.foldl_cons, ih]
    by_cases hnew : parent ≠ id ∧ parent ∉ visited
    · rw [if_pos hnew, ExtTreeSet.mem_insert, List.mem_cons]
      constructor
      · rintro ((heq | hold) | ⟨hmem, hother⟩)
        · rw [← Std.LawfulEqCmp.eq_of_compare heq]
          exact .inr ⟨.inl rfl, hnew⟩
        · exact .inl hold
        · exact .inr ⟨.inr hmem, hother⟩
      · rintro (hold | ⟨rfl | hmem, hother⟩)
        · exact .inl (.inr hold)
        · exact .inl (.inl Std.ReflCmp.compare_self)
        · exact .inr ⟨hmem, hother⟩
    · rw [if_neg hnew, List.mem_cons]
      constructor
      · rintro (hold | ⟨hmem, hother⟩)
        · exact .inl hold
        · exact .inr ⟨.inr hmem, hother⟩
      · rintro (hold | ⟨rfl | hmem, hother⟩)
        · exact .inl hold
        -- the operation itself and visited parents are not followed
        · exact absurd hother hnew
        · exact .inr ⟨hmem, hother⟩

/-- What a walk has inspected and has still to inspect. -/
structure Walked (queries : ChainQueries (Migration.Op payloads) Ref Key) (d : Directory)
    (root : OpId) (limit : ℕ) (pending : ExtTreeSet OpId)
    (visited : ExtTreeMap OpId (OperationLookup Ref)) : Prop where
  explores : Exploration queries.Parent root {id | id ∈ pending} {id | id ∈ visited}
  bounded : visited.size ≤ limit
  lookups : ∀ (id : OpId) lookup, visited[id]? = some lookup →
    lookup.operation = id ∧ queries.operation d id = .ok lookup.record

variable {root : OpId} {limit : ℕ} {pending : ExtTreeSet OpId}
  {visited : ExtTreeMap OpId (OperationLookup Ref)}

/-- A walk begins at its root. -/
lemma Walked.start (queries : ChainQueries (Migration.Op payloads) Ref Key) (d : Directory)
    (root : OpId) (limit : ℕ) :
    queries.Walked d root limit (extend ∅ [root]) ∅ where
  explores := by
    have hpending : {id | id ∈ extend ∅ [root]} = {root} := by
      ext id
      show id ∈ extend ∅ [root] ↔ id = root
      rw [mem_extend, or_iff_right ExtTreeSet.not_mem_empty, List.mem_singleton]
    have hvisited : {id | id ∈ (∅ : ExtTreeMap OpId (OperationLookup Ref))} = ∅ :=
      Set.eq_empty_of_forall_notMem fun _ => ExtTreeMap.not_mem_empty
    rw [hpending, hvisited]
    exact Exploration.start _ root
  bounded := by
    rw [ExtTreeMap.size_empty]
    exact Nat.zero_le limit
  lookups id lookup hlookup := by
    rw [ExtTreeMap.getElem?_empty] at hlookup
    cases hlookup

/-- One identity is inspected. -/
lemma Walked.visit (h : queries.Walked d root limit pending visited)
    (hsize : visited.size < limit) {id : OpId} (hid : pending.toList.head? = some id)
    {record : Lookup (HistoryEntry (Migration.Op payloads) Ref)}
    (hrecord : queries.operation d id = .ok record) :
    queries.Walked d root limit (pendParents id visited (lookupParents record) (pending.erase id))
        (visited.insert id ⟨id, record⟩)
      ∧ (visited.insert id ⟨id, record⟩).size = visited.size + 1 := by
  have hpend : id ∈ pending := ExtTreeSet.mem_toList.mp (List.mem_of_head? hid)
  -- what is pending was not visited before, so that every round visits one more
  have hnew : id ∉ visited := h.explores.disjoint id hpend
  have hgrown : (visited.insert id ⟨id, record⟩).size = visited.size + 1 := by
    rw [ExtTreeMap.size_insert]
    exact if_neg hnew
  refine ⟨⟨?_, by omega, fun other lookup hlookup => ?_⟩, hgrown⟩
  · refine h.explores.visit (a := id) hpend (fun other => ?_) fun other => ?_
    · show other ∈ pendParents id visited (lookupParents record) (pending.erase id) ↔ _
      rw [mem_pendParents, ExtTreeSet.mem_erase, ne_eq, Std.compare_eq_iff_eq,
        mem_lookupParents hrecord]
      constructor
      · rintro (⟨hne, hold⟩ | ⟨hparent, hne, hfresh⟩)
        · exact ⟨.inl hold, Ne.symm hne⟩
        · exact ⟨.inr ⟨hparent, hfresh⟩, hne⟩
      · rintro ⟨hold | ⟨hparent, hfresh⟩, hne⟩
        · exact .inl ⟨Ne.symm hne, hold⟩
        · exact .inr ⟨hparent, hne, hfresh⟩
    · show other ∈ visited.insert id ⟨id, record⟩ ↔ _
      rw [ExtTreeMap.mem_insert, Std.compare_eq_iff_eq, eq_comm]
      rfl
  · rw [ExtTreeMap.getElem?_insert] at hlookup
    split at hlookup
    · next hsame =>
      cases hlookup
      exact ⟨Std.compare_eq_iff_eq.mp hsame, Std.compare_eq_iff_eq.mp hsame ▸ hrecord⟩
    · exact h.lookups other lookup hlookup

/-- What a walk inspects is found step by step. -/
lemma Walked.loop {fuel : ℕ} (h : queries.Walked d root limit pending visited)
    {result : ExtTreeSet OpId × ExtTreeMap OpId (OperationLookup Ref)}
    (hloop : queries.ancestorsLoop d limit fuel pending visited = .ok result) :
    queries.Walked d root limit result.1 result.2 := by
  induction fuel generalizing pending visited with
  | zero =>
    cases hloop
    exact h
  | succ fuel ih =>
    rw [ancestorsLoop] at hloop
    split at hloop
    · next hsize =>
      split at hloop
      · cases hloop
        exact h
      · next id hid =>
        obtain ⟨record, hrecord, hloop⟩ := bind_eq_ok.mp hloop
        exact ih (h.visit hsize hid hrecord).1 hloop
    · cases hloop
      exact h

/-- A walk stops by itself: rounds beyond the budget change nothing. -/
lemma Walked.loop_stops (h : queries.Walked d root limit pending visited) {rounds fuel : ℕ}
    (hrounds : limit ≤ visited.size + rounds) (hfuel : rounds ≤ fuel) :
    queries.ancestorsLoop d limit fuel pending visited
      = queries.ancestorsLoop d limit rounds pending visited := by
  induction rounds generalizing fuel pending visited with
  | zero =>
    cases fuel with
    | zero => rfl
    | succ fuel =>
      -- the budget is used up
      show (if visited.size < limit then _ else Except.ok (pending, visited)) = _
      exact if_neg (by omega)
  | succ rounds ih =>
    obtain ⟨fuel, rfl⟩ := Nat.exists_eq_add_of_le' (show 1 ≤ fuel by omega)
    rw [ancestorsLoop, ancestorsLoop]
    split
    · next hsize =>
      split
      · rfl
      · next id hid =>
        cases hrecord : queries.operation d id with
        | error error => rfl
        | ok record =>
          -- one identity more is inspected, one round less is left
          obtain ⟨hnext, hgrown⟩ := h.visit hsize hid hrecord
          exact ih hnext (by omega) (by omega)
    · rfl

/-- A walk succeeds unless a lookup of something reachable fails. -/
lemma Walked.loop_total {fuel : ℕ} (h : queries.Walked d root limit pending visited)
    (htotal : ∀ id, Relation.ReflTransGen queries.Parent root id →
      ∃ record, queries.operation d id = .ok record) :
    ∃ result, queries.ancestorsLoop d limit fuel pending visited = .ok result := by
  induction fuel generalizing pending visited with
  | zero => exact ⟨_, rfl⟩
  | succ fuel ih =>
    rw [ancestorsLoop]
    split
    · next hsize =>
      split
      · exact ⟨_, rfl⟩
      · next id hid =>
        have hpend : id ∈ pending := ExtTreeSet.mem_toList.mp (List.mem_of_head? hid)
        obtain ⟨record, hrecord⟩ := htotal id (h.explores.reachable id (.inl hpend))
        rw [hrecord]
        exact ih (h.visit hsize hid hrecord).1
    · exact ⟨_, rfl⟩

/-- What was inspected stays so. -/
lemma mem_of_loop {fuel : ℕ} {id : OpId} (hid : id ∈ visited)
    {result : ExtTreeSet OpId × ExtTreeMap OpId (OperationLookup Ref)}
    (hloop : queries.ancestorsLoop d limit fuel pending visited = .ok result) : id ∈ result.2 := by
  induction fuel generalizing pending visited with
  | zero =>
    cases hloop
    exact hid
  | succ fuel ih =>
    rw [ancestorsLoop] at hloop
    split at hloop
    · split at hloop
      · cases hloop
        exact hid
      · obtain ⟨record, -, hloop⟩ := bind_eq_ok.mp hloop
        exact ih (ExtTreeMap.mem_insert.mpr (.inr hid)) hloop
    · cases hloop
      exact hid

/-- The root is inspected first. -/
lemma root_mem_of_loop (hlimit : 1 ≤ limit)
    {result : ExtTreeSet OpId × ExtTreeMap OpId (OperationLookup Ref)}
    (hloop : queries.ancestorsLoop d limit limit (extend ∅ [root]) ∅ = .ok result) :
    root ∈ result.2 := by
  obtain ⟨rounds, rfl⟩ := Nat.exists_eq_add_of_le' hlimit
  rw [ancestorsLoop, if_pos (by rw [ExtTreeMap.size_empty]; omega)] at hloop
  split at hloop
  · next hnone =>
    -- the root is pending
    have hroot : root ∈ (extend ∅ [root]).toList :=
      ExtTreeSet.mem_toList.mpr (mem_extend.mpr (.inr (List.mem_singleton_self root)))
    rw [List.head?_eq_none_iff.mp hnone] at hroot
    cases hroot
  · next id hid =>
    have hmem := ExtTreeSet.mem_toList.mp (List.mem_of_head? hid)
    rw [mem_extend, or_iff_right ExtTreeSet.not_mem_empty, List.mem_singleton] at hmem
    obtain ⟨record, -, hloop⟩ := bind_eq_ok.mp hloop
    rw [hmem] at hloop
    exact mem_of_loop (ExtTreeMap.mem_insert.mpr (.inl (Std.compare_eq_iff_eq.mpr rfl))) hloop

/-- What a walk of at most `limit` identities from `root` tells about the parents of accepted
operations. -/
structure Surveys (queries : ChainQueries (Migration.Op payloads) Ref Key) (d : Directory)
    (root : OpId) (limit : ℕ) (graph : AncestorGraph Ref) : Prop where
  rooted : graph.root = root
  started : root ∈ graph.operations.map OperationLookup.operation
  bounded : graph.operations.length ≤ limit
  /-- Every identity is inspected once, and the identities are in their order. -/
  ordered : (graph.operations.map OperationLookup.operation).Pairwise (· < ·)
  frontier_ordered : graph.frontier.Pairwise (· < ·)
  lookups : ∀ lookup ∈ graph.operations,
    queries.operation d lookup.operation = .ok lookup.record
  disjoint : ∀ id ∈ graph.frontier, id ∉ graph.operations.map OperationLookup.operation
  reachable : ∀ id, id ∈ graph.operations.map OperationLookup.operation ∨ id ∈ graph.frontier →
    Relation.ReflTransGen queries.Parent root id
  closed : ∀ id ∈ graph.operations.map OperationLookup.operation, ∀ parent,
    queries.Parent id parent →
      parent ∈ graph.operations.map OperationLookup.operation ∨ parent ∈ graph.frontier
  complete : graph.frontier = [] ↔ ∀ id, id ∈ graph.operations.map OperationLookup.operation
    ↔ Relation.ReflTransGen queries.Parent root id
  /-- The relationships are the parent references of what was found, with multiplicity. -/
  relationships : graph.relationships = graph.operations.flatMap fun lookup =>
    match lookup.record with
    | .found entry => parentRelationships entry
    | .missing | .conflicted _ => []
  /-- What was found is what is accepted. -/
  accepted : ∀ lookup ∈ graph.operations, ∀ op, queries.index.get lookup.operation = some op
    ↔ ∃ entry, lookup.record = .found entry ∧ entry.operation = op

omit [Checksum] [Blake3] [Ord Ref] [TransOrd Ref] [IndexSchema (Migration.Op payloads) Ref Key] in
/-- The causal relationships of lookups are the parent references of what they found. -/
lemma filter_relationships (operations : List (OperationLookup Ref)) :
    (operations.flatMap OperationLookup.relationships).filter (fun relation =>
        decide (relation.kind = RelationshipKind.causalParent))
      = operations.flatMap fun lookup =>
        match lookup.record with
        | .found entry => parentRelationships entry
        | .missing | .conflicted _ => [] := by
  rw [List.filter_flatMap]
  apply List.flatMap_congr
  intro lookup _
  unfold OperationLookup.relationships
  cases lookup.record with
  | found entry => exact filter_recordedRelationships entry
  | missing => rfl
  | conflicted variants => rfl

lemma Walked.mem_operations (h : queries.Walked d root limit pending visited)
    (lookup : OperationLookup Ref) :
    lookup ∈ visited.toList.map Prod.snd ↔ visited[lookup.operation]? = some lookup := by
  rw [List.mem_map]
  constructor
  · intro ⟨⟨id, found⟩, hmem, heq⟩
    have hfound := ExtTreeMap.mem_toList_iff_getElem?_eq_some.mp hmem
    rw [← heq, (h.lookups id found hfound).1]
    exact hfound
  · intro hsome
    exact ⟨(lookup.operation, lookup), ExtTreeMap.mem_toList_iff_getElem?_eq_some.mpr hsome, rfl⟩

lemma Walked.operations_eq (h : queries.Walked d root limit pending visited) :
    (visited.toList.map Prod.snd).map OperationLookup.operation = visited.keys := by
  rw [← ExtTreeMap.map_fst_toList_eq_keys, List.map_map]
  apply List.map_congr_left
  intro entry hentry
  exact (h.lookups entry.1 entry.2 (ExtTreeMap.mem_toList_iff_getElem?_eq_some.mp hentry)).1

/-- What a walk that is stopped gives. -/
lemma Walked.surveys (h : queries.Walked d root limit pending visited) (hroot : root ∈ visited) :
    queries.Surveys d root limit ⟨root, visited.toList.map Prod.snd,
      ((visited.toList.map Prod.snd).flatMap OperationLookup.relationships).filter (fun relation =>
        decide (relation.kind = RelationshipKind.causalParent)), pending.toList⟩ := by
  have hmem : ∀ id, id ∈ (visited.toList.map Prod.snd).map OperationLookup.operation
      ↔ id ∈ visited := by
    intro id
    rw [h.operations_eq, ExtTreeMap.mem_keys]
  have hpending : pending.toList = [] ↔ {id | id ∈ pending} = (∅ : Set OpId) := by
    rw [List.eq_nil_iff_forall_not_mem, Set.eq_empty_iff_forall_notMem]
    exact forall_congr' fun id => not_congr ExtTreeSet.mem_toList
  have hlookups : ∀ lookup ∈ visited.toList.map Prod.snd,
      queries.operation d lookup.operation = .ok lookup.record := by
    intro lookup hlookup
    exact (h.lookups _ _ ((h.mem_operations lookup).mp hlookup)).2
  constructor
  · rfl
  · exact (hmem root).mpr hroot
  · rw [List.length_map, ExtTreeMap.length_toList]
    exact h.bounded
  · rw [h.operations_eq]
    exact ExtTreeMap.ordered_keys.imp lt_of_compare
  · exact sorted_toList pending
  · exact hlookups
  · intro id hid hinspected
    exact h.explores.disjoint id (ExtTreeSet.mem_toList.mp hid) ((hmem id).mp hinspected)
  · intro id hid
    refine h.explores.reachable id ?_
    rcases hid with hinspected | hfrontier
    · exact .inr ((hmem id).mp hinspected)
    · exact .inl (ExtTreeSet.mem_toList.mp hfrontier)
  · intro id hid parent hparent
    rcases h.explores.closed id ((hmem id).mp hid) parent hparent with hvisited | hpend
    · exact .inl ((hmem parent).mpr hvisited)
    · exact .inr (ExtTreeSet.mem_toList.mpr hpend)
  · simp only [hmem]
    exact hpending.trans h.explores.complete_iff
  · exact filter_relationships _
  · intro lookup hlookup op
    exact get_of_operation (hlookups lookup hlookup)

/-- A walk with an admissible budget succeeds unless a lookup fails. -/
lemma ancestors_total (hlimit : 1 ≤ limit ∧ limit ≤ 1000)
    (htotal : ∀ id, Relation.ReflTransGen queries.Parent root id →
      ∃ record, queries.operation d id = .ok record) :
    ∃ graph, queries.ancestors d root limit = .ok graph := by
  obtain ⟨result, hresult⟩ : ∃ result,
      queries.ancestorsLoop d limit limit (extend ∅ [root]) ∅ = .ok result :=
    (Walked.start queries d root limit).loop_total htotal
  have hvalid : PageRequest.validate ⟨none, limit⟩ = .ok ⟨none, limit⟩ := if_pos hlimit
  unfold ancestors
  rw [hvalid]
  show ∃ graph, (queries.ancestorsLoop d limit limit (extend ∅ [root]) ∅ >>= _) = .ok graph
  rw [hresult]
  exact ⟨_, rfl⟩

lemma surveys_of_ancestors {graph : AncestorGraph Ref}
    (h : queries.ancestors d root limit = .ok graph) : queries.Surveys d root limit graph := by
  unfold ancestors at h
  obtain ⟨request, hvalid, h⟩ := bind_eq_ok.mp h
  obtain ⟨⟨pending, visited⟩, hresult, h⟩ := bind_eq_ok.mp h
  have hwalked : queries.Walked d root limit pending visited :=
    (Walked.start queries d root limit).loop hresult
  have hlimit : 1 ≤ limit ∧ limit ≤ 1000 := by
    unfold PageRequest.validate at hvalid
    split at hvalid
    · next hlimit => exact hlimit
    · cases hvalid
  cases h
  exact hwalked.surveys (root_mem_of_loop hlimit.1 hresult)

/-- Whatever the index holds, an ancestor walk stops within its budget, it succeeds unless a lookup
fails, and what it gives surveys the parents of accepted operations. -/
theorem ancestors_complete (queries : ChainQueries (Migration.Op payloads) Ref Key) (d : Directory)
    (root : OpId) (limit : ℕ) :
    (∀ fuel, limit ≤ fuel → queries.ancestorsLoop d limit fuel (extend ∅ [root]) ∅
        = queries.ancestorsLoop d limit limit (extend ∅ [root]) ∅)
      ∧ ((1 ≤ limit ∧ limit ≤ 1000) →
        (∀ id, Relation.ReflTransGen queries.Parent root id →
          ∃ record, queries.operation d id = .ok record) →
        ∃ graph, queries.ancestors d root limit = .ok graph)
      ∧ ∀ graph, queries.ancestors d root limit = .ok graph →
        queries.Surveys d root limit graph := by
  refine ⟨fun fuel hfuel => ?_, ancestors_total, fun graph => surveys_of_ancestors⟩
  have hstart := Walked.start queries d root limit
  exact hstart.loop_stops (by omega) hfuel

end ChainQueries

namespace Setting

variable {Ref Key : Type} [AddressHash] [Schema (Migration.Op payloads)] [Checksum] [Blake3]
  [Ord Ref] [TransOrd Ref] [IndexSchema (Migration.Op payloads) Ref Key] [DecidableEq Key]
  [LawfulEqOrd Ref] [DecidableEq Ref] {rootDir : String}
  {w : Setting (Migration.Op payloads) Ref Key} {index : ChainIndex (Migration.Op payloads) Ref Key}

end Setting
end EditChain.Index

namespace EditChain.Index.ChainQueries

open Core Fallible Store
open Activity (payloads)
open Migration (AddressHash messageAddresses)
open Std (ExtTreeMap)

section Witness

local instance walkAddresses : AddressHash := messageAddresses
local instance walkChecksum : Checksum := crc32cChecksum
local instance walkDigests : Blake3 := messageDigests

/-- Operations without content. -/
local instance walkIndex : IndexSchema (Migration.Op payloads) ℕ ℕ where
  references _ := []
  keys _ _ := []
  items _ := []
  aliases _ := []

/-- An operation with parents. -/
def childOf (id : OpId) (parents : Migration.ParentSet OpId) : Migration.Op payloads :=
  ⟨id, none, parents, ⟨0, .none, .none, 0⟩, .plain (.error .empty .empty)⟩

/-- The first operation names itself and the second, and the second names the first. -/
def cyclicQueries : ChainQueries (Migration.Op payloads) ℕ ℕ :=
  let entries : ExtTreeMap OpId (IndexEntry (Migration.Op payloads)) :=
    (ExtTreeMap.empty.insert 1 ⟨⟨0, 0, 1, none⟩, some (childOf 1 (.two 1 2))⟩).insert 2
      ⟨⟨0, 1, 1, none⟩, some (childOf 2 (.one 1))⟩
  ⟨⟨{ tail := ⟨"/chain", { entries := entries }, 0, 0, none, none, ∅, false⟩ }, false⟩⟩

/-- What a walk inspects and where it is cut off. -/
def walked (limit : ℕ) : Except IoError (List OpId × List OpId) := do
  let graph ← cyclicQueries.ancestors (oneSegment [10, 20] 2) 1 limit
  return (graph.operations.map Engine.OperationLookup.operation, graph.frontier)

lemma exists_of_walked {limit : ℕ} {ids frontier : List OpId}
    (h : (walked limit).toOption = some (ids, frontier)) :
    ∃ graph, cyclicQueries.ancestors (oneSegment [10, 20] 2) 1 limit = .ok graph
      ∧ graph.operations.map Engine.OperationLookup.operation = ids
      ∧ graph.frontier = frontier := by
  obtain ⟨graph, hgraph, hfound⟩ := bind_eq_ok.mp (toOption_eq_some.mp h)
  obtain ⟨hids, hfrontier⟩ := Prod.mk.inj (Except.ok.inj hfound)
  exact ⟨graph, hgraph, hids, hfrontier⟩

/-- A walk through a cycle inspects what can be reached, and stops; with a budget of one operation it
is cut off at the other one, which can be reached. -/
theorem ancestors_complete_cyclic :
    ∃ graph cut, cyclicQueries.ancestors (oneSegment [10, 20] 2) 1 10 = .ok graph
      ∧ graph.operations.map Engine.OperationLookup.operation = [1, 2] ∧ graph.frontier = []
      ∧ (∀ id : OpId, id ∈ [1, 2] ↔ Relation.ReflTransGen cyclicQueries.Parent 1 id)
      ∧ cyclicQueries.ancestors (oneSegment [10, 20] 2) 1 1 = .ok cut
      ∧ cut.operations.map Engine.OperationLookup.operation = [1] ∧ cut.frontier = [2]
      ∧ Relation.ReflTransGen cyclicQueries.Parent 1 2 := by
  have hwhole : (walked 10).toOption = some ([1, 2], []) := by decide +kernel
  have hpart : (walked 1).toOption = some ([1], [2]) := by decide +kernel
  obtain ⟨graph, hgraph, hids, hfrontier⟩ := exists_of_walked hwhole
  obtain ⟨cut, hcut, hids', hfrontier'⟩ := exists_of_walked hpart
  have hsurveys := (ancestors_complete cyclicQueries (oneSegment [10, 20] 2) 1 10).2.2 graph hgraph
  have hsurveys' := (ancestors_complete cyclicQueries (oneSegment [10, 20] 2) 1 1).2.2 cut hcut
  have hreached := hsurveys.complete.mp hfrontier
  rw [hids] at hreached
  have hends : (2 : OpId) ∈ cut.frontier := by
    rw [hfrontier']
    exact List.mem_singleton_self _
  exact ⟨graph, cut, hgraph, hids, hfrontier, hreached, hcut, hids', hfrontier',
    hsurveys'.reachable 2 (.inr hends)⟩

end Witness
end EditChain.Index.ChainQueries
