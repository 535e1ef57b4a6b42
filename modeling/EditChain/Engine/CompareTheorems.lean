import EditChain.Engine.Compare
import EditChain.Engine.DiffTheorems
import EditChain.Engine.SearchTheorems

/-!
# Comparisons are exact

A comparison of recorded content says exactly what the two sides allow to say, and the comparison
in a revision is that of its two snapshots.
-/

namespace EditChain.Engine

/-- What a comparison says of two sides: nothing unless both are there, else whether they are equal,
and if not the smallest replacement that leads from one to the other. -/
structure Exact (before after : Option Bytes) (comparison : ByteComparison) : Prop where
  unavailable : comparison = .unavailable ↔ before = none ∨ after = none
  identical : comparison = .identical ↔ before.isSome ∧ before = after
  changed : ∀ range range', comparison = .changed range range' → ∃ a b, before = some a
    ∧ after = some b ∧ a ≠ b ∧ MinimalReplacement a b range range'

/-- Bytes of which the positions are numbers of 64 bits are compared exactly. -/
lemma compareBytes_exact {before after : Option Bytes}
    (hbefore : ∀ bytes ∈ before, bytes.length < 2 ^ 64)
    (hafter : ∀ bytes ∈ after, bytes.length < 2 ^ 64) :
    ∃ comparison, compareBytes before after = .ok comparison
      ∧ Exact before after comparison := by
  cases before with
  | none =>
    refine ⟨.unavailable, rfl, ⟨by simp, by simp, fun range range' h => ?_⟩⟩
    cases h
  | some a =>
    cases after with
    | none =>
      refine ⟨.unavailable, rfl, ⟨by simp, by simp, fun range range' h => ?_⟩⟩
      cases h
    | some b =>
      by_cases heq : a = b
      · rw [heq]
        refine ⟨.identical, if_pos rfl, ⟨by simp, by simp, fun range range' h => ?_⟩⟩
        cases h
      · obtain ⟨range, range', hchanged, hsame, hstart, hstop, hstop'⟩ :=
          compareBytes_of_ne (hbefore a rfl) (hafter b rfl) heq
        refine ⟨_, hchanged, ⟨by simp, by simpa using heq, fun found found' h => ?_⟩⟩
        cases h
        exact ⟨a, b, rfl, rfl, heq, minimalReplacement_of_ne heq hsame hstart hstop hstop'⟩

/-- The complete bytes of a side. -/
def sideBytes : Lookup (Activity.ContentResult RecordRef) → Option Bytes
  | .found content => content.value.bytes
  | .missing | .conflicted _ => none

lemma compareSides_eq (before after : Lookup (Activity.ContentResult RecordRef)) :
    compareSides before after = compareBytes (sideBytes before) (sideBytes after) := by
  cases before with
  | found content =>
    cases after with
    | found other => rfl
    | missing | conflicted =>
      show Except.ok _ = compareBytes content.value.bytes none
      cases content.value.bytes <;> rfl
  | missing | conflicted => cases after <;> rfl

end EditChain.Engine

namespace EditChain.Index.ChainQueries

open Activity (ContentField ContentReference ContentResult payloads)
open Core Fallible Store
open Engine
open Migration (AddressHash)

variable [AddressHash] [Schema (Migration.Op payloads)] [Checksum] [Blake3]

local instance measuredSchema : IndexSchema (Migration.Op payloads) ContentReference IndexKey :=
  recordedSchema

variable {queries : ChainQueries (Migration.Op payloads) ContentReference IndexKey} {d : Directory}
  {truth : ContentReference → ContentState}
  {resolve : ContentReference → Except IoError Activity.BlobResolution}

omit [Schema (Migration.Op payloads)] in
/-- A field of a found entry is resolved if the blob store answers. -/
lemma fieldContent_total (hresolve : ∀ reference, ∃ found, resolve reference = .ok found)
    {id : OpId} {entry : HistoryEntry (Migration.Op payloads) ContentReference}
    (h : queries.operation d id = .ok (.found entry)) (field : ContentField) :
    ∃ content, Activity.fieldContent resolve entry.evidence field = .ok content
      ∧ queries.content d resolve id field = .ok (.found content) := by
  obtain ⟨content, hcontent, -⟩ := fieldContent_agrees (contents_total hresolve h) field
  exact ⟨content, hcontent, bind_eq_ok.mpr ⟨_, h, bind_eq_ok.mpr ⟨content, hcontent, rfl⟩⟩⟩

/-- Any field of any operation can be asked for if the blob store answers. -/
lemma content_total (h : queries.index.state.Mirrors d truth)
    (hresolve : ∀ reference, ∃ found, resolve reference = .ok found) (id : OpId)
    (field : ContentField) : ∃ result, queries.content d resolve id field = .ok result := by
  obtain ⟨lookup, hlookup⟩ := operation_total h id
  cases lookup with
  | found entry =>
    obtain ⟨content, -, hcontent⟩ := fieldContent_total hresolve hlookup field
    exact ⟨_, hcontent⟩
  | missing => exact ⟨.missing, bind_eq_ok.mpr ⟨_, hlookup, rfl⟩⟩
  | conflicted variants => exact ⟨.conflicted variants, bind_eq_ok.mpr ⟨_, hlookup, rfl⟩⟩

omit [Schema (Migration.Op payloads)] in
/-- A comparison of two fields is that of their bytes. -/
lemma compare_of_content {query query' : ContentQuery}
    {before after : Lookup (ContentResult Engine.RecordRef)}
    (hbefore : queries.content d resolve query.operation query.field = .ok before)
    (hafter : queries.content d resolve query'.operation query'.field = .ok after) :
    queries.compare d resolve query query'
      = (compareBytes (sideBytes before) (sideBytes after)).map fun comparison =>
        ⟨query, query', before, after, comparison⟩ := by
  unfold ChainQueries.compare
  rw [hbefore, hafter]
  show (compareSides before after >>= fun comparison => .ok _) = _
  rw [compareSides_eq]
  cases compareBytes (sideBytes before) (sideBytes after) <;> rfl

variable {id : OpId} {record : HistoryEntry (Migration.Op payloads) ContentReference}

omit [Schema (Migration.Op payloads)] in
/-- A file revision has its fields and the comparison of its snapshots. -/
lemma diff_of_file (h : queries.operation d id = .ok (.found record))
    (hfile : isFile record.operation.kind = true)
    {before after edit : ContentResult Engine.RecordRef}
    (hbefore : Activity.fieldContent resolve record.evidence .fileBase = .ok before)
    (hafter : Activity.fieldContent resolve record.evidence .fileAfter = .ok after)
    (hedit : Activity.fieldContent resolve record.evidence .fileEdit = .ok edit) :
    queries.diff d resolve id
      = (compareBytes before.value.bytes after.value.bytes).map fun comparison =>
        .found ⟨record, before, after, edit, comparison⟩ := by
  unfold diff
  rw [h]
  show (diffOf resolve record >>= fun value => Except.ok (Lookup.found value)) = _
  unfold diffOf
  rw [if_neg (fun hnot => hnot hfile), hbefore, hafter, hedit]
  dsimp only [bind, Except.bind, pure, Except.pure]
  cases compareBytes before.value.bytes after.value.bytes <;> rfl

omit [Schema (Migration.Op payloads)] in
/-- Another accepted operation is refused. -/
lemma diff_of_other (h : queries.operation d id = .ok (.found record))
    (hother : isFile record.operation.kind = false) :
    queries.diff d resolve id
      = .error ⟨.invalidInput, "diff requires a recorded file revision"⟩ := by
  unfold diff
  rw [h]
  show (diffOf resolve record >>= fun value => Except.ok (Lookup.found value)) = _
  unfold diffOf
  rw [if_pos (by simp [hother])]
  rfl

/-- What is not accepted is missing or conflicted. -/
lemma diff_of_not_accepted (h : queries.index.state.Mirrors d truth)
    (hnone : queries.index.get id = none) :
    queries.diff d resolve id = .ok .missing
      ∨ ∃ variants, queries.diff d resolve id = .ok (.conflicted variants) := by
  obtain ⟨result, hresult⟩ := operation_total h id
  cases result with
  | found entry =>
    -- what is found is accepted
    rw [(get_of_operation hresult).mpr ⟨entry, rfl, rfl⟩] at hnone
    cases hnone
  | missing => exact .inl (bind_eq_ok.mpr ⟨_, hresult, rfl⟩)
  | conflicted variants => exact .inr ⟨variants, bind_eq_ok.mpr ⟨_, hresult, rfl⟩⟩

end EditChain.Index.ChainQueries

namespace EditChain.Index.Setting

open Activity (ContentField ContentReference ContentResult payloads)
open Core Fallible Store
open Engine
open Migration (AddressHash)

variable [AddressHash] [Schema (Migration.Op payloads)] [Checksum] [Blake3]

local instance weighedSchema : IndexSchema (Migration.Op payloads) ContentReference IndexKey :=
  recordedSchema

variable {root : String} {w : Setting (Migration.Op payloads) ContentReference IndexKey}
  {index : ChainIndex (Migration.Op payloads) ContentReference IndexKey}
  {resolve : ContentReference → Except IoError Activity.BlobResolution}

/-- Whatever happened before, as long as the blob store answers, any two fields can be compared, and
the comparison is exact: nothing is said unless both sides are complete, equal sides are identical,
and else the smallest replacement leads from one to the other. A file revision has the fields that
queries for its snapshots and its edit give, with the comparison of the snapshots; another accepted
operation is refused, and what is not accepted is missing or conflicted. -/
theorem comparisons_exact {d : Directory} {truth : ContentReference → ContentState}
    (hrun : Run root { directory := d, truth := truth } w) (hindex : w.handle = some index)
    (hresolve : ∀ reference, ∃ found, resolve reference = .ok found) :
    let queries : ChainQueries (Migration.Op payloads) ContentReference IndexKey := ⟨index⟩
    (∀ query query' : ContentQuery, ∃ before after,
      queries.content w.directory resolve query.operation query.field = .ok before
        ∧ queries.content w.directory resolve query'.operation query'.field = .ok after
        ∧ ((∀ bytes ∈ sideBytes before, bytes.length < 2 ^ 64) →
          (∀ bytes ∈ sideBytes after, bytes.length < 2 ^ 64) → ∃ comparison,
            queries.compare w.directory resolve query query'
                = .ok ⟨query, query', before, after, comparison⟩
              ∧ Exact (sideBytes before) (sideBytes after) comparison))
    ∧ (∀ id op, index.get id = some op → isFile op.kind = true →
      ∃ record before after edit, queries.operation w.directory id = .ok (.found record)
        ∧ queries.content w.directory resolve id .fileBase = .ok (.found before)
        ∧ queries.content w.directory resolve id .fileAfter = .ok (.found after)
        ∧ queries.content w.directory resolve id .fileEdit = .ok (.found edit)
        ∧ ∀ comparison, (queries.diff w.directory resolve id
            = .ok (.found ⟨record, before, after, edit, comparison⟩)
          ↔ queries.compare w.directory resolve ⟨id, .fileBase⟩ ⟨id, .fileAfter⟩
            = .ok ⟨⟨id, .fileBase⟩, ⟨id, .fileAfter⟩, .found before, .found after, comparison⟩))
    ∧ (∀ id op, index.get id = some op → isFile op.kind = false →
      queries.diff w.directory resolve id
        = .error ⟨.invalidInput, "diff requires a recorded file revision"⟩)
    ∧ ∀ id, index.get id = none → queries.diff w.directory resolve id = .ok .missing
      ∨ ∃ variants, queries.diff w.directory resolve id = .ok (.conflicted variants) := by
  intro queries
  have hmirrors : queries.index.state.Mirrors w.directory w.truth := Run.mirrors hrun hindex
  refine ⟨fun query query' => ?_, fun id op hget hfile => ?_, fun id op hget hfile => ?_,
    fun id hnone => ?_⟩
  · obtain ⟨before, hbefore⟩ :=
      ChainQueries.content_total hmirrors hresolve query.operation query.field
    obtain ⟨after, hafter⟩ :=
      ChainQueries.content_total hmirrors hresolve query'.operation query'.field
    refine ⟨before, after, hbefore, hafter, fun hsmall hsmall' => ?_⟩
    obtain ⟨comparison, hcomparison, hexact⟩ := compareBytes_exact hsmall hsmall'
    refine ⟨comparison, ?_, hexact⟩
    rw [ChainQueries.compare_of_content hbefore hafter, hcomparison]
    rfl
  · obtain ⟨-, encoded, statuses, -, -, hfound⟩ := ChainQueries.operation_of_get hmirrors hget
    obtain ⟨before, hbefore, hbase⟩ := ChainQueries.fieldContent_total hresolve hfound .fileBase
    obtain ⟨after, hafter, hresult⟩ := ChainQueries.fieldContent_total hresolve hfound .fileAfter
    obtain ⟨edit, hedit, hrecorded⟩ := ChainQueries.fieldContent_total hresolve hfound .fileEdit
    refine ⟨_, before, after, edit, hfound, hbase, hresult, hrecorded, fun comparison => ?_⟩
    have hdiff := ChainQueries.diff_of_file hfound hfile hbefore hafter hedit
    have hcompare : queries.compare w.directory resolve ⟨id, .fileBase⟩ ⟨id, .fileAfter⟩ = _ :=
      ChainQueries.compare_of_content hbase hresult
    rw [hdiff, hcompare]
    -- both come down to the comparison of the same bytes
    show (compareBytes before.value.bytes after.value.bytes).map _ = _
      ↔ (compareBytes before.value.bytes after.value.bytes).map _ = _
    cases compareBytes before.value.bytes after.value.bytes with
    | error error => exact iff_of_false (fun h => by cases h) (fun h => by cases h)
    | ok found =>
      constructor
      · intro h
        cases h
        rfl
      · intro h
        cases h
        rfl
  · obtain ⟨-, encoded, statuses, -, -, hfound⟩ := ChainQueries.operation_of_get hmirrors hget
    exact ChainQueries.diff_of_other hfound hfile
  · exact ChainQueries.diff_of_not_accepted hmirrors hnone

end EditChain.Index.Setting

namespace EditChain.Index.Setting

open Activity (ContentField ContentReference ContentResult payloads)
open Core Fallible Store
open Engine
open Migration (AddressHash messageAddresses)

section Witness

local instance compareAddresses : AddressHash := messageAddresses
local instance compareChecksum : Checksum := crc32cChecksum
local instance compareDigests : Blake3 := messageDigests
local instance compareSchema : Schema (Migration.Op payloads) := spelledSchema

local instance compareIndex : IndexSchema (Migration.Op payloads) ContentReference IndexKey :=
  recordedSchema

/-- The comparison of the two snapshots, of the message of the commit with the result of the tool,
and of the content of a note with an edit that was not recorded. -/
def compared (index : ChainIndex (Migration.Op payloads) ContentReference IndexKey) :
    Except IoError (List ByteComparison) := do
  let revision ← ChainQueries.compare ⟨index⟩ recordedChain snapshots ⟨6, .fileBase⟩
    ⟨6, .fileAfter⟩
  let same ← ChainQueries.compare ⟨index⟩ recordedChain snapshots ⟨3, .gitMessage⟩
    ⟨4, .toolContent⟩
  let unknown ← ChainQueries.compare ⟨index⟩ recordedChain snapshots ⟨5, .noteContent⟩
    ⟨6, .fileEdit⟩
  return [revision.comparison, same.comparison, unknown.comparison]

set_option maxRecDepth 8192 in
lemma recordedIndex_compared : recordedIndex.1.toOption.any (fun index =>
    decide ((index.get 6).map (fun op => isFile op.kind) = some true)
      && decide ((index.get 4).map (fun op => isFile op.kind) = some false)
      && decide ((compared index).toOption
        = some [.changed ⟨6, 11⟩ ⟨6, 10⟩, .identical, .unavailable])) = true := by
  decide +kernel

lemma exists_of_compared {index : ChainIndex (Migration.Op payloads) ContentReference IndexKey}
    {first : ByteComparison} {rest : List ByteComparison}
    (h : (compared index).toOption = some (first :: rest)) :
    ∃ revision, ChainQueries.compare ⟨index⟩ recordedChain snapshots ⟨6, .fileBase⟩
      ⟨6, .fileAfter⟩ = .ok revision ∧ revision.comparison = first := by
  obtain ⟨revision, hrevision, h⟩ := bind_eq_ok.mp (toOption_eq_some.mp h)
  obtain ⟨same, -, h⟩ := bind_eq_ok.mp h
  obtain ⟨unknown, -, h⟩ := bind_eq_ok.mp h
  exact ⟨revision, hrevision, (List.cons.inj (Except.ok.inj h)).1⟩

/-- The revision of a file replaces its last word; equal contents are identical, and nothing is said
of what was not recorded. The result of a tool is no revision. -/
theorem comparisons_exact_revision :
    ∃ (w : Setting (Migration.Op payloads) ContentReference IndexKey)
      (index : ChainIndex (Migration.Op payloads) ContentReference IndexKey)
      (revision : RevisionDiff),
      Run "/chain" { directory := recordedChain, truth := fun _ => .available } w
        ∧ w.handle = some index
        ∧ ChainQueries.diff ⟨index⟩ w.directory snapshots 6 = .ok (.found revision)
        ∧ revision.comparison = .changed ⟨6, 11⟩ ⟨6, 10⟩
        ∧ (compared index).toOption
          = some [.changed ⟨6, 11⟩ ⟨6, 10⟩, .identical, .unavailable]
        ∧ ChainQueries.diff ⟨index⟩ w.directory snapshots 4
          = .error ⟨.invalidInput, "diff requires a recorded file revision"⟩ := by
  obtain ⟨w, index, hrun, hindex, hdirectory, hshows⟩ :=
    recorded_opened _ recordedIndex_compared
  rw [Bool.and_eq_true, Bool.and_eq_true, decide_eq_true_iff, decide_eq_true_iff,
    decide_eq_true_iff] at hshows
  obtain ⟨⟨hfile, hother⟩, hcompared⟩ := hshows
  obtain ⟨op, hget, hfile⟩ := Option.map_eq_some_iff.mp hfile
  obtain ⟨tool, htool, hother⟩ := Option.map_eq_some_iff.mp hother
  obtain ⟨-, hrevision, hrefused, -⟩ := comparisons_exact hrun hindex snapshots_answer
  obtain ⟨record, before, after, edit, -, hbase, hresult, -, hdiff⟩ := hrevision 6 op hget hfile
  obtain ⟨revision, hcompare, hchanged⟩ := exists_of_compared hcompared
  have hsides : ChainQueries.compare ⟨index⟩ w.directory snapshots ⟨6, .fileBase⟩
      ⟨6, .fileAfter⟩ = _ := ChainQueries.compare_of_content hbase hresult
  rw [← hdirectory, hsides] at hcompare
  cases hcomparison : compareBytes (sideBytes (.found before)) (sideBytes (.found after)) with
  | error error =>
    rw [hcomparison] at hcompare
    cases hcompare
  | ok comparison =>
    rw [hcomparison] at hcompare hsides
    have hrevision := Except.ok.inj hcompare
    rw [← hrevision] at hchanged
    exact ⟨w, index, _, hrun, hindex, (hdiff comparison).mpr hsides, hchanged, hcompared,
      hrefused 4 tool htool hother⟩

end Witness
end EditChain.Index.Setting
