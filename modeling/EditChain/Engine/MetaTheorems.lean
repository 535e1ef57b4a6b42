import EditChain.Engine.AncestorTheorems
import EditChain.Engine.QueriesTheorems

/-!
# Relationships, Git observations and metadata are complete

In every run of an index, the pages of recorded relationships and of Git observations give all of
them, and the metadata of an operation has every registration of its actor and session, every parent
and every relationship at it. The registrations are looked up by one fact and then narrowed down; no
registration lacks the fact.
-/

namespace EditChain.Index

open Activity (ContentReference KindName payloads)
open Engine
open Migration (AddressHash OpKind)

variable [AddressHash]

/-! ## Facts -/

namespace ChainQueries

open Core Fallible Store

variable [Schema (Migration.Op payloads)] [Checksum] [Blake3]

local instance registeredSchema : IndexSchema (Migration.Op payloads) ContentReference IndexKey :=
  recordedSchema

variable {queries : ChainQueries (Migration.Op payloads) ContentReference IndexKey} {d : Directory}
  {truth : ContentReference → ContentState}

/-! ## Registrations -/

end ChainQueries
end EditChain.Index

/-! ## Runs -/

namespace EditChain.Index.Setting

open Activity (ContentReference payloads)
open Core Fallible Store
open Engine
open Migration (AddressHash)

variable [AddressHash] [Schema (Migration.Op payloads)] [Checksum] [Blake3]

local instance describedSchema : IndexSchema (Migration.Op payloads) ContentReference IndexKey :=
  recordedSchema

variable {root : String} {w : Setting (Migration.Op payloads) ContentReference IndexKey}
  {index : ChainIndex (Migration.Op payloads) ContentReference IndexKey}

/-- Whatever happened before, and whatever the limits, the pages of relationships give every
relationship that an accepted operation records, those at one entity if there is one; and the pages
of Git observations give every accepted operation that the query retains. Both are in the order of
identities, and within an operation in the order of its fields. -/
theorem recorded_queries_complete {d : Directory} {truth : ContentReference → ContentState}
    (hrun : Run root { directory := d, truth := truth } w) (hindex : w.handle = some index) :
    let queries : ChainQueries (Migration.Op payloads) ContentReference IndexKey := ⟨index⟩
    ∃ entries : List (HistoryEntry (Migration.Op payloads) ContentReference),
      (entries.map fun entry => Schema.id entry.operation).Pairwise (· < ·)
        ∧ (∀ id op, index.get id = some op ↔ ∃ entry ∈ entries, entry.operation = op
          ∧ Schema.id op = id ∧ queries.operation w.directory id = .ok (.found entry))
        ∧ ∀ limits : ℕ → ℕ, (∀ n, 1 ≤ limits n ∧ limits n ≤ 1000) →
          ∀ fuel, (queries.candidates none).length < fuel →
          (∀ entity : Option EntityRef, ∃ before last,
            followPages (queries.relationships w.directory entity) QueryPage.nextAfter limits fuel 0
                none = .ok (before ++ [last])
              ∧ (∀ page ∈ before, page.nextAfter.isSome) ∧ last.nextAfter = none
              ∧ (before ++ [last]).flatMap QueryPage.items
                = (entries.flatMap recordedRelationships).filter fun relation => entity.all
                  fun entity => decide (relation.source = entity ∨ relation.target = entity))
          ∧ ∀ query : GitQuery, ∃ before last,
            followPages (queries.git w.directory query) QueryPage.nextAfter limits fuel 0 none
                = .ok (before ++ [last])
              ∧ (∀ page ∈ before, page.nextAfter.isSome) ∧ last.nextAfter = none
              ∧ (before ++ [last]).flatMap QueryPage.items
                = entries.filter fun entry => query.retains entry.operation.kind := by
  intro queries
  have hmirrors : queries.index.state.Mirrors w.directory w.truth := Run.mirrors hrun hindex
  have hsorted : (queries.candidates none).Pairwise (· < ·) := ChainQueries.pairwise_candidates none
  have hids := ChainQueries.ids_entries hmirrors fun id (hid : id ∈ queries.candidates none) => hid
  refine ⟨queries.entriesOf w.directory none, ?_, fun id op => ⟨fun hget => ?_, ?_⟩,
    fun limits hlimits fuel hfuel => ⟨fun entity => ?_, fun query => ?_⟩⟩
  · rw [← hids] at hsorted
    exact hsorted
  · obtain ⟨hid, encoded, content, -, -, hfound⟩ := ChainQueries.operation_of_get hmirrors hget
    subst hid
    have hentry : (⟨op, ⟨Schema.id op, Blake3.hash encoded⟩, content⟩ :
        HistoryEntry (Migration.Op payloads) ContentReference)
          ∈ queries.entriesOf w.directory none := by
      refine (ChainQueries.mem_entriesOf hmirrors none).mpr ⟨hfound, hget, ?_⟩
      intro fact hfact
      cases hfact
    exact ⟨_, hentry, rfl, rfl, hfound⟩
  · intro ⟨entry, hentry, hop, hid, _⟩
    obtain ⟨-, hget, -⟩ := (ChainQueries.mem_entriesOf hmirrors none).mp hentry
    rw [hop, hid] at hget
    exact hget
  · -- a page of relationships is a page of entries, of which some have none
    have hnext : ∀ found,
        (queries.relationshipsPage w.directory entity found).nextAfter = found.2 := fun _ => rfl
    obtain ⟨cuts, cut, hpages, hcuts, hcut, hall⟩ := followPages_complete hsorted
      (fun after limit hlimit => ChainQueries.relationships_page hmirrors entity after hlimit)
      hnext hlimits hfuel
    refine ⟨_, _, hpages, fun page hpage => ?_, hcut, ?_⟩
    · obtain ⟨found, hfound, rfl⟩ := List.mem_map.mp hpage
      exact hcuts found hfound
    · have hitems : ∀ found, (queries.relationshipsPage w.directory entity found).items
          = found.1.flatMap (queries.relationshipsAt w.directory entity) := fun _ => rfl
      refine (flatMap_pages hitems hall).trans ?_
      unfold ChainQueries.entriesOf
      rw [ChainQueries.flatMap_entries, List.filter_flatMap]
      rfl
  · -- a page of observations is a page of entries, of which the query retains some
    have hnext : ∀ found, (queries.gitPage w.directory query found).nextAfter = found.2 :=
      fun _ => rfl
    obtain ⟨cuts, cut, hpages, hcuts, hcut, hall⟩ := followPages_complete hsorted
      (fun after limit hlimit => ChainQueries.git_page hmirrors query after hlimit)
      hnext hlimits hfuel
    refine ⟨_, _, hpages, fun page hpage => ?_, hcut, ?_⟩
    · obtain ⟨found, hfound, rfl⟩ := List.mem_map.mp hpage
      exact hcuts found hfound
    · have hitems : ∀ found, (queries.gitPage w.directory query found).items
          = found.1.flatMap (queries.gitAt w.directory query) := fun _ => rfl
      refine (flatMap_pages hitems hall).trans ?_
      unfold ChainQueries.entriesOf
      rw [ChainQueries.filter_entries]
      rfl

end EditChain.Index.Setting

namespace EditChain.Index.Setting

open Activity (ContentReference payloads)
open Core Fallible Store
open Engine
open Migration (AddressHash OpKind messageAddresses)

section Witness

local instance metaAddresses : AddressHash := messageAddresses
local instance metaChecksum : Checksum := crc32cChecksum
local instance metaDigests : Blake3 := messageDigests

/-- The text of the recorded operations. -/
def greetingText : Bytes := [104, 101, 108, 108, 111, 32, 119, 111, 114, 108, 100]

/-- An operation of actor 1 in session 7. -/
def inSession (id : OpId) (parents : Migration.ParentSet OpId) (kind : OpKind payloads OpId) :
    Migration.Op payloads :=
  ⟨id, none, parents, ⟨1, .unixMs 1700000000000, .session 7, 0⟩, kind⟩

/-- A commit with the text, in repository 9. -/
def greetingCommit : Activity.GitCommit :=
  let oid : Activity.GitOid := ⟨.sha256, 5, fun hsame => by cases hsame⟩
  let signature : Activity.GitSignature := ⟨.inline [97], .empty, 0⟩
  ⟨9, .sha256, oid, .resolved, oid, [], signature, signature, 0, 0, .inline greetingText, [], [],
    []⟩

/-- Registrations of the actor and of the session, a commit, the result of a tool, a note on it, and
a revision of a file. -/
def recordedOps : List (Migration.Op payloads) :=
  [inSession 1 .none (.plain (.actor (.inline [97]) .empty)),
    inSession 2 (.one 1) (.plain (.session 7 none (.inline [115]) .empty)),
    inSession 3 (.one 2) (.gitCommit none greetingCommit),
    inSession 4 (.two 2 3) (.plain (.tool (.inline [116]) .empty .finish (.inline greetingText))),
    inSession 5 (.one 4) (.note [4] ⟨.explains, .inline [104, 111]⟩),
    inSession 6 (.one 5) (.plain
      (.file ⟨8, .saved, some (.hash256 1), some (.hash256 2), .none⟩))]

/-- Every operation is written as its identity. -/
def spelled (op : Migration.Op payloads) : Bytes := [UInt8.ofNat op.id.toNat]

/-- The decoder of these operations. -/
@[reducible] def spelledSchema : Schema (Migration.Op payloads) where
  decodeOp bytes :=
    match recordedOps.find? fun op => decide (spelled op = bytes) with
    | some op => .ok op
    | none => .error ⟨"Hit the end of buffer, expected more data"⟩
  id := Migration.Op.id
  parentIds := Migration.Op.parentIds

local instance metaSchema : Schema (Migration.Op payloads) := spelledSchema

local instance metaIndex : IndexSchema (Migration.Op payloads) ContentReference IndexKey :=
  recordedSchema

/-- A chain with these operations. -/
def recordedChain : Directory :=
  oneSegment (frameBytes 0 (recordedOps.map fun op => ⟨0, spelled op⟩)) 2

/-- All content has arrived. -/
def arrived : Answers ContentReference := fun _ => .ok .available

/-- The chain as it is, and nothing in the way. -/
def recordedAround : Surroundings (Answers ContentReference) :=
  ⟨recordedChain, arrived, none, .done⟩

/-- The index of the chain, as it is opened for the first time. -/
def recordedIndex :
    Except IoError (ChainIndex (Migration.Op payloads) ContentReference IndexKey)
      × Option (State (Migration.Op payloads) ContentReference IndexKey) :=
  (ChainIndex.openIndex answering "/chain" (generationName 1 2 3) recordedAround
    recordedAround).exec none

/-- What can be seen of the opened index holds in a run. -/
lemma recorded_opened
    (shows : ChainIndex (Migration.Op payloads) ContentReference IndexKey → Bool)
    (h : recordedIndex.1.toOption.any shows = true) :
    ∃ (w : Setting (Migration.Op payloads) ContentReference IndexKey)
      (index : ChainIndex (Migration.Op payloads) ContentReference IndexKey),
      Run "/chain" { directory := recordedChain, truth := fun _ => .available } w
        ∧ w.handle = some index ∧ w.directory = recordedChain ∧ shows index = true :=
  Run.opened (.of_eq fun _ => rfl) 1 2 3 rfl h

/-- What pages of two operations show: the records of all relationships, and the operations of the
observations of a repository. -/
def paged (index : ChainIndex (Migration.Op payloads) ContentReference IndexKey) :
    Except IoError (ℕ × List OpId × List OpId) := do
  let related ← followPages (ChainQueries.relationships ⟨index⟩ recordedChain none)
    QueryPage.nextAfter (fun _ => 2) 7 0 none
  let observed ← followPages (ChainQueries.git ⟨index⟩ recordedChain ⟨9, none⟩)
    QueryPage.nextAfter (fun _ => 2) 7 0 none
  return (related.length,
    (related.flatMap QueryPage.items).map fun relation => relation.recordRef.operation,
    (observed.flatMap QueryPage.items).map fun entry => entry.operation.id)

set_option maxRecDepth 8192 in
lemma recordedIndex_paged : recordedIndex.1.toOption.any (fun index =>
    decide ((ChainQueries.candidates ⟨index⟩ none).length < 7)
      && decide ((paged index).toOption = some (3, [2, 3, 4, 4, 5, 5, 6], [3]))) = true := by
  decide +kernel

/-- In pages of two operations, the relationships of all records and the one observation of the
repository. -/
theorem recorded_queries_complete_pages :
    ∃ (w : Setting (Migration.Op payloads) ContentReference IndexKey)
      (index : ChainIndex (Migration.Op payloads) ContentReference IndexKey)
      (entries : List (HistoryEntry (Migration.Op payloads) ContentReference))
      (related : List (QueryPage (RecordedRelationship ContentReference)))
      (observed : List (QueryPage (HistoryEntry (Migration.Op payloads) ContentReference))),
      Run "/chain" { directory := recordedChain, truth := fun _ => .available } w
        ∧ w.handle = some index
        ∧ followPages (ChainQueries.relationships ⟨index⟩ w.directory none) QueryPage.nextAfter
            (fun _ => 2) 7 0 none = .ok related
        ∧ related.length = 3
        ∧ related.flatMap QueryPage.items = entries.flatMap recordedRelationships
        ∧ (related.flatMap QueryPage.items).map (fun relation => relation.recordRef.operation)
          = [2, 3, 4, 4, 5, 5, 6]
        ∧ followPages (ChainQueries.git ⟨index⟩ w.directory ⟨9, none⟩) QueryPage.nextAfter
            (fun _ => 2) 7 0 none = .ok observed
        ∧ (observed.flatMap QueryPage.items).map (fun entry => entry.operation.id) = [3] := by
  obtain ⟨w, index, hrun, hindex, hdirectory, hshows⟩ := recorded_opened _ recordedIndex_paged
  rw [Bool.and_eq_true, decide_eq_true_iff, decide_eq_true_iff] at hshows
  obtain ⟨hfew, hpaged⟩ := hshows
  obtain ⟨entries, -, -, hpages⟩ := recorded_queries_complete hrun hindex
  obtain ⟨hrelationships, hgit⟩ := hpages (fun _ => 2) (fun _ => ⟨by omega, by omega⟩) 7 hfew
  obtain ⟨before, last, hfollow, -, -, hitems⟩ := hrelationships none
  obtain ⟨before', last', hfollow', -⟩ := hgit ⟨9, none⟩
  have hseen : paged index = .ok ((before ++ [last]).length,
      ((before ++ [last]).flatMap QueryPage.items).map (fun relation =>
        relation.recordRef.operation),
      ((before' ++ [last']).flatMap QueryPage.items).map fun entry => entry.operation.id) := by
    unfold paged
    rw [← hdirectory]
    exact bind_eq_ok.mpr ⟨_, hfollow, bind_eq_ok.mpr ⟨_, hfollow', rfl⟩⟩
  rw [hseen] at hpaged
  obtain ⟨hlength, hshown⟩ := Prod.mk.inj (Option.some.inj hpaged)
  obtain ⟨hids, hobserved⟩ := Prod.mk.inj hshown
  refine ⟨w, index, entries, _, _, hrun, hindex, hfollow, hlength, ?_, hids, hfollow', hobserved⟩
  rw [hitems]
  exact List.filter_eq_self.mpr fun _ _ => rfl

end Witness
end EditChain.Index.Setting
