import EditChain.Engine.HistoryTheorems
import EditChain.Engine.Queries

/-!
# Queries go through all accepted operations

A query that looks at the entries of one page of the history at a time has, over all pages and
whatever their limits, looked at every accepted operation once, in the order of identities. So
relationships and Git observations are complete, and so is the metadata of an operation.
-/

namespace EditChain.Engine

open Fallible

/-! ## Following a cursor -/

variable {P : Type} {query : PageRequest → Except IoError P} {next : P → Option OpId}
  {ids : List OpId} {page : List OpId × Option OpId → P} {limits : ℕ → ℕ}

/-- If every page of a query is made of a page of identities, so are the pages that are followed. -/
lemma followPages_eq
    (hpage : ∀ after limit, 1 ≤ limit ∧ limit ≤ 1000 →
      query ⟨after, limit⟩ = .ok (page (Paging.page ids after limit)))
    (hnext : ∀ found, next (page found) = found.2) (hlimits : ∀ n, 1 ≤ limits n ∧ limits n ≤ 1000)
    (fuel n : ℕ) (after : Option OpId) :
    followPages query next limits fuel n after
      = .ok ((Paging.pages ids limits fuel n after).map page) := by
  induction fuel generalizing n after with
  | zero => rfl
  | succ fuel ih =>
    rw [followPages, hpage after (limits n) (hlimits n), Paging.pages]
    refine bind_eq_ok.mpr ⟨_, rfl, ?_⟩
    rw [hnext]
    cases (Paging.page ids after (limits n)).2 with
    | none => rfl
    | some last => exact bind_eq_ok.mpr ⟨_, ih (n + 1) (some last), rfl⟩

/-- The pages of such a query end, and go through all identities. -/
lemma followPages_complete (hids : ids.Pairwise (· < ·))
    (hpage : ∀ after limit, 1 ≤ limit ∧ limit ≤ 1000 →
      query ⟨after, limit⟩ = .ok (page (Paging.page ids after limit)))
    (hnext : ∀ found, next (page found) = found.2) (hlimits : ∀ n, 1 ≤ limits n ∧ limits n ≤ 1000)
    {fuel : ℕ} (hfuel : ids.length < fuel) :
    ∃ cuts cut, followPages query next limits fuel 0 none = .ok (cuts.map page ++ [page cut])
      ∧ (∀ found ∈ cuts, (next (page found)).isSome) ∧ next (page cut) = none
      ∧ (cuts ++ [cut]).flatMap Prod.fst = ids := by
  obtain ⟨cuts, cut, heq, hcuts, hcut, hall⟩ :=
    @Paging.pages_spec _ _ _ _ _ _ _ hids limits (fun n => (hlimits n).1) fuel 0 none (by
      rw [Paging.beyond_none]
      exact hfuel)
  refine ⟨cuts, cut, ?_, fun found hfound => ?_, ?_, ?_⟩
  · rw [followPages_eq hpage hnext hlimits, heq, List.map_append, List.map_singleton]
  · rw [hnext]
    exact (hcuts found hfound).2
  · rw [hnext]
    exact hcut
  · rw [hall, Paging.beyond_none]

/-- What the pages yield, if each yields something for each of its identities. -/
lemma flatMap_pages {β : Type} {items : P → List β} {each : OpId → List β}
    (hitems : ∀ found, items (page found) = found.1.flatMap each)
    {cuts : List (List OpId × Option OpId)} {cut : List OpId × Option OpId}
    (hall : (cuts ++ [cut]).flatMap Prod.fst = ids) :
    (cuts.map page ++ [page cut]).flatMap items = ids.flatMap each := by
  rw [← hall, List.flatMap_assoc, ← List.map_singleton, ← List.map_append, List.flatMap_map]
  exact List.flatMap_congr fun found _ => hitems found

end EditChain.Engine

namespace EditChain.Index.ChainQueries

open Activity (ContentReference payloads)
open Core Fallible Store
open Engine
open Migration (AddressHash)

variable [AddressHash] [Schema (Migration.Op payloads)] [Checksum] [Blake3]

local instance pagedSchema : IndexSchema (Migration.Op payloads) ContentReference IndexKey :=
  recordedSchema

variable {queries : ChainQueries (Migration.Op payloads) ContentReference IndexKey} {d : Directory}
  {truth : ContentReference → ContentState}

/-! ## Entries -/

/-- The entries of accepted operations with a fact, in the order of identities. -/
def entriesOf (queries : ChainQueries (Migration.Op payloads) ContentReference IndexKey)
    (d : Directory) (key : Option IndexKey) :
    List (HistoryEntry (Migration.Op payloads) ContentReference) :=
  (queries.candidates key).filterMap (queries.entryAt d)

/-- The entries are those of the accepted operations that have the fact. -/
lemma mem_entriesOf (h : queries.index.state.Mirrors d truth) (key : Option IndexKey)
    {entry : HistoryEntry (Migration.Op payloads) ContentReference} :
    entry ∈ queries.entriesOf d key
      ↔ queries.operation d (Schema.id entry.operation) = .ok (.found entry)
        ∧ queries.index.get (Schema.id entry.operation) = some entry.operation
        ∧ ∀ fact ∈ key, fact ∈ keys entry.operation (Activity.references entry.operation) := by
  unfold entriesOf
  rw [List.mem_filterMap]
  constructor
  · intro ⟨id, hid, hentry⟩
    obtain ⟨op, hget, hfacts⟩ := (mem_candidates h key id).mp hid
    have hfound := entryAt_eq_some.mp hentry
    obtain ⟨other, heq, hop⟩ := (get_of_operation hfound).mp hget
    cases heq
    obtain ⟨hschema, -⟩ := operation_of_get h hget
    rw [hop, hschema]
    exact ⟨hfound, hget, hfacts⟩
  · intro ⟨hfound, hget, hfacts⟩
    exact ⟨_, (mem_candidates h key _).mpr ⟨_, hget, hfacts⟩, entryAt_eq_some.mpr hfound⟩

/-- A page of the history is the entries of a page of candidates. -/
lemma history_page (h : queries.index.state.Mirrors d truth) (key : Option IndexKey)
    (after : Option OpId) {limit : ℕ} (hlimit : 1 ≤ limit ∧ limit ≤ 1000) :
    queries.history d key ⟨after, limit⟩
      = .ok (queries.entriesPage d (Paging.page (queries.candidates key) after limit)) :=
  history_eq (operation_total h) key after hlimit

/-! ## Relationships and Git observations -/

/-- The relationships of one identity that a query yields. -/
def relationshipsAt (queries : ChainQueries (Migration.Op payloads) ContentReference IndexKey)
    (d : Directory) (entity : Option EntityRef) (id : OpId) :
    List (RecordedRelationship ContentReference) :=
  ((queries.entryAt d id).toList.flatMap recordedRelationships).filter fun relation =>
    entity.all fun entity => decide (relation.source = entity ∨ relation.target = entity)

/-- The page of relationships of a page of identities. -/
def relationshipsPage (queries : ChainQueries (Migration.Op payloads) ContentReference IndexKey)
    (d : Directory) (entity : Option EntityRef) (found : List OpId × Option OpId) :
    QueryPage (RecordedRelationship ContentReference) :=
  ⟨found.1.flatMap (queries.relationshipsAt d entity), found.2⟩

omit [Schema (Migration.Op payloads)] in
lemma flatMap_entries {β : Type} (ids : List OpId)
    (f : HistoryEntry (Migration.Op payloads) ContentReference → List β) :
    (ids.filterMap (queries.entryAt d)).flatMap f
      = ids.flatMap fun id => (queries.entryAt d id).toList.flatMap f := by
  induction ids with
  | nil => rfl
  | cons id rest ih =>
    rw [List.flatMap_cons, ← ih]
    cases hentry : queries.entryAt d id with
    | none =>
      rw [List.filterMap_cons_none hentry]
      rfl
    | some entry =>
      rw [List.filterMap_cons_some hentry, List.flatMap_cons, Option.toList_some,
        List.flatMap_singleton]

lemma relationships_page (h : queries.index.state.Mirrors d truth) (entity : Option EntityRef)
    (after : Option OpId) {limit : ℕ} (hlimit : 1 ≤ limit ∧ limit ≤ 1000) :
    queries.relationships d entity ⟨after, limit⟩
      = .ok (queries.relationshipsPage d entity
          (Paging.page (queries.candidates none) after limit)) := by
  unfold relationships
  rw [history_page h none after hlimit]
  refine bind_eq_ok.mpr ⟨_, rfl, ?_⟩
  show Except.ok (QueryPage.mk ((List.flatMap recordedRelationships
    (List.filterMap (queries.entryAt d) _)).filter _) _) = _
  rw [flatMap_entries, List.filter_flatMap]
  rfl

/-- The Git observations of one identity that a query yields. -/
def gitAt (queries : ChainQueries (Migration.Op payloads) ContentReference IndexKey)
    (d : Directory) (query : GitQuery) (id : OpId) :
    List (HistoryEntry (Migration.Op payloads) ContentReference) :=
  (queries.entryAt d id).toList.filter fun entry => query.retains entry.operation.kind

/-- The page of Git observations of a page of identities. -/
def gitPage (queries : ChainQueries (Migration.Op payloads) ContentReference IndexKey)
    (d : Directory) (query : GitQuery) (found : List OpId × Option OpId) :
    QueryPage (HistoryEntry (Migration.Op payloads) ContentReference) :=
  ⟨found.1.flatMap (queries.gitAt d query), found.2⟩

omit [Schema (Migration.Op payloads)] in
lemma filter_entries (ids : List OpId)
    (p : HistoryEntry (Migration.Op payloads) ContentReference → Bool) :
    (ids.filterMap (queries.entryAt d)).filter p
      = ids.flatMap fun id => (queries.entryAt d id).toList.filter p := by
  induction ids with
  | nil => rfl
  | cons id rest ih =>
    rw [List.flatMap_cons, ← ih]
    cases hentry : queries.entryAt d id with
    | none =>
      rw [List.filterMap_cons_none hentry]
      rfl
    | some entry =>
      rw [List.filterMap_cons_some hentry, Option.toList_some, ← List.filter_append,
        List.singleton_append]

lemma git_page (h : queries.index.state.Mirrors d truth) (query : GitQuery) (after : Option OpId)
    {limit : ℕ} (hlimit : 1 ≤ limit ∧ limit ≤ 1000) :
    queries.git d query ⟨after, limit⟩
      = .ok (queries.gitPage d query (Paging.page (queries.candidates none) after limit)) := by
  unfold git
  rw [history_page h none after hlimit]
  refine bind_eq_ok.mpr ⟨_, rfl, ?_⟩
  show Except.ok (QueryPage.mk ((List.filterMap (queries.entryAt d) _).filter _) _) = _
  rw [filter_entries]
  rfl

end EditChain.Index.ChainQueries
