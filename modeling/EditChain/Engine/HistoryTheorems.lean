import EditChain.Engine.History
import EditChain.Index.PrefixTheorems

/-!
# Every accepted operation is paged through once

Whatever happened to an index, each operation it accepts has a single encoded record and indexed
content, so that no lookup fails. Whatever the limits, the pages of a history therefore give exactly
the accepted operations, each once and in the order of identities.
-/

namespace EditChain.Index

open Core Fallible Store
open Engine (EncodedRecord HistoryEntry Lookup PageRequest QueryPage)
open Std (ExtTreeMap ExtTreeSet TransOrd LawfulEqOrd)

/-- A list is worked off if none of its elements fails. -/
lemma mapM_total {α β : Type} {f : α → Except IoError β} {l : List α}
    (h : ∀ a ∈ l, ∃ b, f a = .ok b) : ∃ results, l.mapM f = .ok results := by
  induction l with
  | nil => exact ⟨[], rfl⟩
  | cons a rest ih =>
    obtain ⟨b, hb⟩ := h a (by simp)
    obtain ⟨results, hresults⟩ := ih fun other hother => h other (by simp [hother])
    rw [List.mapM_cons, hb]
    show ∃ results, (rest.mapM f >>= fun found => Except.ok (b :: found)) = .ok results
    rw [hresults]
    exact ⟨_, rfl⟩

namespace ChainQueries

variable {Op Ref Key : Type} [Schema Op] [Checksum] [Blake3] [Ord Ref] [TransOrd Ref]
  [IndexSchema Op Ref Key] [DecidableEq Key] {queries : ChainQueries Op Ref Key} {d : Directory}

/-! ## Lookups -/

/-- The entry that is found for an identity. -/
def entryAt (queries : ChainQueries Op Ref Key) (d : Directory) (id : OpId) :
    Option (HistoryEntry Op Ref) :=
  match queries.operation d id with
  | .ok (.found entry) => some entry
  | _ => none

omit [Schema Op] [DecidableEq Key] in
lemma entryAt_eq_some {id : OpId} {entry : HistoryEntry Op Ref} :
    queries.entryAt d id = some entry ↔ queries.operation d id = .ok (.found entry) := by
  unfold entryAt
  split
  · next found hfound => rw [hfound, Option.some.injEq, Except.ok.injEq, Lookup.found.injEq]
  · next hnone =>
    constructor
    · nofun
    · intro hfound
      exact absurd hfound (hnone entry)

omit [Schema Op] [DecidableEq Key] in
lemma entryAt_eq_none {id : OpId} {result : Lookup (HistoryEntry Op Ref)}
    (h : queries.operation d id = .ok result) (hnone : ∀ entry, result ≠ .found entry) :
    queries.entryAt d id = none := by
  rw [Option.eq_none_iff_forall_ne_some]
  intro entry hsome
  have hfound := entryAt_eq_some.mp hsome
  rw [h] at hfound
  exact hnone entry (Except.ok.inj hfound)

omit [Schema Op] [DecidableEq Key] in
/-- A lookup that does not fail tells whether an operation is accepted, and which. -/
lemma get_of_operation {id : OpId} {result : Lookup (HistoryEntry Op Ref)}
    (h : queries.operation d id = .ok result) {op : Op} :
    queries.index.get id = some op ↔ ∃ entry, result = .found entry ∧ entry.operation = op := by
  unfold operation at h
  obtain ⟨variants, -, h⟩ := bind_eq_ok.mp h
  cases hget : queries.index.get id with
  | none =>
    rw [hget] at h
    dsimp only at h
    split at h
    · cases h
      exact ⟨nofun, nofun⟩
    · cases h
      exact ⟨nofun, nofun⟩
  | some found =>
    rw [hget] at h
    dsimp only at h
    split at h
    · obtain ⟨content, -, h⟩ := bind_eq_ok.mp h
      obtain ⟨listed, -, h⟩ := bind_eq_ok.mp h
      cases h
      constructor
      · intro heq
        exact ⟨_, rfl, Option.some.inj heq⟩
      · intro ⟨entry, heq, hop⟩
        cases heq
        exact congrArg some hop
    · cases h

omit [Schema Op] [DecidableEq Key] in
/-- As long as no lookup fails, a page has the entries that are found. -/
lemma entries_eq {ids : List OpId} (h : ∀ id ∈ ids, ∃ result, queries.operation d id = .ok result) :
    queries.entries d ids = .ok (ids.filterMap (queries.entryAt d)) := by
  induction ids with
  | nil => rfl
  | cons id rest ih =>
    obtain ⟨result, hresult⟩ := h id (by simp)
    have hrest := ih fun other hother => h other (by simp [hother])
    rw [entries, hresult]
    cases result with
    | found entry =>
      have hsome := entryAt_eq_some.mpr hresult
      rw [List.filterMap_cons_some hsome]
      show (entries queries d rest >>= fun found => Except.ok (entry :: found)) = _
      rw [hrest]
      rfl
    | missing =>
      rw [List.filterMap_cons_none (entryAt_eq_none hresult nofun)]
      exact hrest
    | conflicted variants =>
      rw [List.filterMap_cons_none (entryAt_eq_none hresult nofun)]
      exact hrest

omit [Schema Op] [Checksum] [Blake3] [TransOrd Ref] [IndexSchema Op Ref Key] in
lemma pairwise_candidates (key : Option Key) : (queries.candidates key).Pairwise (· < ·) := by
  cases key with
  | none => exact ExtTreeMap.ordered_keys.imp lt_of_compare
  | some key => exact sorted_toList _

/-! ## Pages -/

/-- The query page of a page of identities. -/
def entriesPage (queries : ChainQueries Op Ref Key) (d : Directory)
    (found : List OpId × Option OpId) : QueryPage (HistoryEntry Op Ref) :=
  ⟨found.1.filterMap (queries.entryAt d), found.2⟩

omit [Schema Op] in
/-- A page of the history is the page of its candidates. -/
lemma history_eq (h : ∀ id, ∃ result, queries.operation d id = .ok result) (key : Option Key)
    (after : Option OpId) {limit : ℕ} (hlimit : 1 ≤ limit ∧ limit ≤ 1000) :
    queries.history d key ⟨after, limit⟩
      = .ok (queries.entriesPage d (Paging.page (queries.candidates key) after limit)) := by
  have hvalid : PageRequest.validate ⟨after, limit⟩ = .ok ⟨after, limit⟩ := if_pos hlimit
  unfold history
  rw [hvalid]
  show (queries.entries d _ >>= _) = _
  rw [entries_eq fun id _ => h id]
  cases key <;> rfl

omit [Schema Op] in
/-- Following the cursor gives the pages of the candidates. -/
lemma followHistory_eq (h : ∀ id, ∃ result, queries.operation d id = .ok result) (key : Option Key)
    {limits : ℕ → ℕ} (hlimits : ∀ n, 1 ≤ limits n ∧ limits n ≤ 1000) (fuel n : ℕ)
    (after : Option OpId) :
    queries.followHistory d key limits fuel n after
      = .ok ((Paging.pages (queries.candidates key) limits fuel n after).map
          (queries.entriesPage d)) := by
  induction fuel generalizing n after with
  | zero => rfl
  | succ fuel ih =>
    rw [followHistory, history_eq h key after (hlimits n), Paging.pages]
    refine bind_eq_ok.mpr ⟨_, rfl, ?_⟩
    have hpage : ∀ found, (queries.entriesPage d found).nextAfter = found.2 := fun _ => rfl
    rw [hpage]
    cases (Paging.page (queries.candidates key) after (limits n)).2 with
    | none => rfl
    | some last =>
      -- the next page begins after the last identity of this one
      exact bind_eq_ok.mpr ⟨_, ih (n + 1) (some last), rfl⟩

omit [Schema Op] in
/-- The loop of `all_history` gives what is on the pages. -/
lemma allHistoryLoop_eq (h : ∀ id, ∃ result, queries.operation d id = .ok result)
    (key : Option Key) {limit : ℕ} (hlimit : 1 ≤ limit ∧ limit ≤ 1000) (fuel n : ℕ)
    (after : Option OpId) :
    queries.allHistoryLoop d key fuel ⟨after, limit⟩
      = .ok ((Paging.pages (queries.candidates key) (fun _ => limit) fuel n after).flatMap
          fun found => found.1.filterMap (queries.entryAt d)) := by
  induction fuel generalizing n after with
  | zero => rfl
  | succ fuel ih =>
    rw [allHistoryLoop, history_eq h key after hlimit, Paging.pages]
    refine bind_eq_ok.mpr ⟨_, rfl, ?_⟩
    have hpage : ∀ found, (queries.entriesPage d found).nextAfter = found.2 := fun _ => rfl
    rw [hpage]
    cases (Paging.page (queries.candidates key) after limit).2 with
    | none =>
      rw [Option.isSome_none, if_neg Bool.false_ne_true, List.flatMap_singleton]
      rfl
    | some last => exact bind_eq_ok.mpr ⟨_, ih (n + 1) (some last), rfl⟩

/-! ## Indexes that mirror their chain -/

variable [LawfulEqOrd Ref] [DecidableEq Ref] {truth : Ref → ContentState}

omit [LawfulEqOrd Ref] [DecidableEq Ref] in
/-- An accepted operation has one encoded record and indexed content. -/
lemma operation_of_get (h : queries.index.state.Mirrors d truth) {id : OpId} {op : Op}
    (hget : queries.index.get id = some op) :
    Schema.id op = id ∧ ∃ encoded content, Schema.decodeOp encoded = .ok op
      ∧ queries.recordVariants d id = .ok [⟨⟨id, Blake3.hash encoded⟩, encoded⟩]
      ∧ queries.operation d id = .ok (.found ⟨op, ⟨id, Blake3.hash encoded⟩, content⟩) := by
  obtain ⟨location, haccepted⟩ : ∃ location,
      acceptedBy queries.index.state.tail.chain id = some (location, op) := by
    have hsome : queries.index.state.tail.chain.get id = some op := hget
    rw [get_eq_acceptedBy, Option.map_eq_some_iff] at hsome
    obtain ⟨⟨location, found⟩, haccepted, rfl⟩ := hsome
    exact ⟨location, haccepted⟩
  -- the record is read back where it was admitted
  obtain ⟨hread, hid⟩ := h.follows.backed id location op haccepted
  obtain ⟨encoded, hencoded, hdecode⟩ : ∃ encoded, readEncodedAt d location = .ok encoded
      ∧ Schema.decodeOp encoded = .ok op := by
    unfold readOpAt at hread
    obtain ⟨encoded, hencoded, hread⟩ := bind_eq_ok.mp hread
    split at hread
    · next found hfound =>
      cases hread
      exact ⟨encoded, hencoded, hfound⟩
    · cases hread
  -- an accepted identity has no conflicting variants, and so a single location
  have hlocations := h.tidy.recordLocations_eq (acceptedBy_eq_some.mp haccepted)
  have hvariants : queries.recordVariants d id
      = .ok [⟨⟨id, Blake3.hash encoded⟩, encoded⟩] := by
    unfold recordVariants ChainIndex.recordVariants
    rw [hlocations, List.mapM_cons, List.mapM_nil, hencoded]
    rfl
  -- its references have an owner, and so an indexed availability
  have hcontent : ∃ content, queries.index.state.contentOf id = .ok (some content) := by
    unfold State.contentOf
    rw [get_eq_acceptedBy, haccepted]
    dsimp only [Option.map_some]
    rw [State.mapM_status fun reference hmem => h.follows.derived.status_isSome haccepted hmem]
    exact ⟨_, rfl⟩
  obtain ⟨content, hcontent⟩ := hcontent
  refine ⟨hid, encoded, content, hdecode, hvariants, ?_⟩
  unfold operation
  rw [hvariants, hget]
  show (queries.index.state.contentOf id >>= _) = _
  rw [hcontent]
  rfl

omit [LawfulEqOrd Ref] [DecidableEq Ref] in
/-- The records of an identity can be read. -/
lemma recordVariants_total (h : queries.index.state.Mirrors d truth) (id : OpId) :
    ∃ variants, queries.recordVariants d id = .ok variants := by
  have hread : ∀ location ∈ queries.index.state.tail.chain.recordLocations id,
      ∃ encoded, readEncodedAt d location = .ok encoded := by
    intro location hlocation
    obtain ⟨op, hread, -⟩ := h.located id location hlocation
    unfold readOpAt at hread
    obtain ⟨encoded, hencoded, -⟩ := bind_eq_ok.mp hread
    exact ⟨encoded, hencoded⟩
  obtain ⟨records, hrecords⟩ := mapM_total hread
  unfold recordVariants ChainIndex.recordVariants
  rw [hrecords]
  exact ⟨_, rfl⟩

omit [LawfulEqOrd Ref] [DecidableEq Ref] in
/-- No lookup fails. -/
lemma operation_total (h : queries.index.state.Mirrors d truth) (id : OpId) :
    ∃ result, queries.operation d id = .ok result := by
  cases hget : queries.index.get id with
  | some op =>
    obtain ⟨-, encoded, content, -, -, hfound⟩ := operation_of_get h hget
    exact ⟨_, hfound⟩
  | none =>
    obtain ⟨variants, hvariants⟩ := recordVariants_total h id
    unfold operation
    rw [hvariants, hget]
    show ∃ result, (if variants.isEmpty then Except.ok Lookup.missing else Except.ok _)
      = .ok result
    split
    · exact ⟨_, rfl⟩
    · exact ⟨_, rfl⟩

omit [Blake3] [LawfulEqOrd Ref] [DecidableEq Ref] in
/-- The candidates are the accepted operations, those with the fact if one is given. -/
lemma mem_candidates (h : queries.index.state.Mirrors d truth) (key : Option Key) (id : OpId) :
    id ∈ queries.candidates key ↔ ∃ op, queries.index.get id = some op
      ∧ ∀ fact ∈ key, fact ∈ IndexSchema.keys op (IndexSchema.references op) := by
  have hget : ∀ op, queries.index.get id = some op ↔ ∃ location,
      acceptedBy queries.index.state.tail.chain id = some (location, op) := by
    intro op
    show queries.index.state.tail.chain.get id = some op ↔ _
    rw [get_eq_acceptedBy, Option.map_eq_some_iff]
    exact ⟨fun ⟨⟨location, found⟩, hsome, heq⟩ => ⟨location, heq ▸ hsome⟩,
      fun ⟨location, hsome⟩ => ⟨_, hsome, rfl⟩⟩
  cases key with
  | none =>
    -- the locations of accepted operations
    show id ∈ queries.index.state.records.keys ↔ _
    rw [ExtTreeMap.mem_keys]
    refine (h.follows.derived.mem_accepted id).trans ?_
    rw [Option.isSome_iff_exists]
    constructor
    · intro ⟨⟨location, op⟩, hsome⟩
      exact ⟨op, (hget op).mpr ⟨location, hsome⟩, nofun⟩
    · intro ⟨op, hop, _⟩
      obtain ⟨location, hsome⟩ := (hget op).mp hop
      exact ⟨_, hsome⟩
  | some key =>
    -- the postings of the fact
    show id ∈ (queries.index.state.postings.owners key).toList ↔ _
    rw [ExtTreeSet.mem_toList, h.posts.mem]
    constructor
    · intro ⟨location, op, hsome, hkey⟩
      refine ⟨op, (hget op).mpr ⟨location, hsome⟩, fun fact hfact => ?_⟩
      rw [← Option.mem_some_iff.mp hfact]
      exact hkey
    · intro ⟨op, hop, hkey⟩
      obtain ⟨location, hsome⟩ := (hget op).mp hop
      exact ⟨location, op, hsome, hkey key rfl⟩

omit [LawfulEqOrd Ref] [DecidableEq Ref] in
/-- Every candidate is found. -/
lemma entryAt_candidate (h : queries.index.state.Mirrors d truth) {key : Option Key} {id : OpId}
    (hid : id ∈ queries.candidates key) :
    ∃ entry, queries.entryAt d id = some entry ∧ Schema.id entry.operation = id := by
  obtain ⟨op, hget, -⟩ := (mem_candidates h key id).mp hid
  obtain ⟨hop, encoded, content, -, -, hfound⟩ := operation_of_get h hget
  exact ⟨_, entryAt_eq_some.mpr hfound, hop⟩

omit [LawfulEqOrd Ref] [DecidableEq Ref] in
/-- The entries of candidates have their identities. -/
lemma ids_entries (h : queries.index.state.Mirrors d truth) {key : Option Key} {ids : List OpId}
    (hids : ∀ id ∈ ids, id ∈ queries.candidates key) :
    (ids.filterMap (queries.entryAt d)).map (fun entry => Schema.id entry.operation) = ids := by
  induction ids with
  | nil => rfl
  | cons id rest ih =>
    obtain ⟨entry, hentry, hid⟩ := entryAt_candidate h (hids id (by simp))
    rw [List.filterMap_cons_some hentry, List.map_cons, hid,
      ih fun other hother => hids other (by simp [hother])]

end ChainQueries

/-! ## Runs -/

namespace Setting

variable {Op Ref Key : Type} [Schema Op] [Checksum] [Blake3] [Ord Ref] [TransOrd Ref]
  [IndexSchema Op Ref Key] [DecidableEq Key] [LawfulEqOrd Ref] [DecidableEq Ref]
  {root : String} {w : Setting Op Ref Key} {index : ChainIndex Op Ref Key}

/-- Whatever happened before, no lookup fails, and an accepted operation is found with its single
encoded record. The history, of all operations or of those with one fact, has the accepted
operations in the order of identities, each once; it is read at once, and with any limits in
finitely many pages of which all but the last yield something and have a cursor to go on from. -/
theorem history_complete {d : Directory} {truth : Ref → ContentState}
    (hrun : Run root { directory := d, truth := truth } w) (hindex : w.handle = some index) :
    let queries : ChainQueries Op Ref Key := ⟨index⟩
    (∀ id, ∃ result, queries.operation w.directory id = .ok result)
      ∧ (∀ id op, index.get id = some op → ∃ encoded content, Schema.decodeOp encoded = .ok op
        ∧ queries.recordVariants w.directory id = .ok [⟨⟨id, Blake3.hash encoded⟩, encoded⟩]
        ∧ queries.operation w.directory id
          = .ok (.found ⟨op, ⟨id, Blake3.hash encoded⟩, content⟩))
      ∧ ∀ key : Option Key, ∃ entries : List (HistoryEntry Op Ref),
        (entries.map fun entry => Schema.id entry.operation).Pairwise (· < ·)
          ∧ (∀ id, id ∈ (entries.map fun entry => Schema.id entry.operation)
            ↔ ∃ op, index.get id = some op
              ∧ ∀ fact ∈ key, fact ∈ IndexSchema.keys op (IndexSchema.references op))
          ∧ (∀ entry ∈ entries,
            queries.operation w.directory (Schema.id entry.operation) = .ok (.found entry))
          ∧ queries.allHistory w.directory key = .ok entries
          ∧ (∀ fuel, (queries.candidates key).length < fuel →
            queries.allHistoryLoop w.directory key fuel ⟨none, 1000⟩ = .ok entries)
          ∧ ∀ limits : ℕ → ℕ, (∀ n, 1 ≤ limits n ∧ limits n ≤ 1000) →
            ∀ fuel, (queries.candidates key).length < fuel → ∃ before last,
              queries.followHistory w.directory key limits fuel 0 none = .ok (before ++ [last])
                ∧ (∀ page ∈ before, page.items ≠ [] ∧ page.nextAfter.isSome)
                ∧ last.nextAfter = none
                ∧ (before ++ [last]).flatMap QueryPage.items = entries := by
  intro queries
  have hmirrors : queries.index.state.Mirrors w.directory w.truth := Run.mirrors hrun hindex
  have htotal := ChainQueries.operation_total hmirrors
  refine ⟨htotal, fun id op hget => (ChainQueries.operation_of_get hmirrors hget).2, fun key => ?_⟩
  have hids := ChainQueries.ids_entries hmirrors fun id (hid : id ∈ queries.candidates key) => hid
  have hsorted : (queries.candidates key).Pairwise (· < ·) :=
    ChainQueries.pairwise_candidates key
  -- what is on the pages is what the candidates give
  have hpages : ∀ limits : ℕ → ℕ, (∀ n, 1 ≤ limits n ∧ limits n ≤ 1000) →
      ∀ fuel n, (queries.candidates key).length < fuel → ∃ before last,
        Paging.pages (queries.candidates key) limits fuel n none = before ++ [last]
          ∧ (∀ found ∈ before, found.1 ≠ [] ∧ found.2.isSome) ∧ last.2 = none
          ∧ (before ++ [last]).flatMap Prod.fst = queries.candidates key := by
    intro limits hlimits fuel n hfuel
    have hspec := @Paging.pages_spec _ _ _ _ _ _ _ hsorted limits (fun n => (hlimits n).1) fuel n
      none
    rw [Paging.beyond_none] at hspec
    exact hspec hfuel
  have hloop : ∀ fuel, (queries.candidates key).length < fuel →
      queries.allHistoryLoop w.directory key fuel ⟨none, 1000⟩
        = .ok ((queries.candidates key).filterMap (queries.entryAt w.directory)) := by
    intro fuel hfuel
    obtain ⟨before, last, heq, -, -, hall⟩ :=
      hpages (fun _ => 1000) (fun _ => ⟨by omega, by omega⟩) fuel 0 hfuel
    rw [ChainQueries.allHistoryLoop_eq htotal key ⟨by omega, le_refl 1000⟩ _ 0, heq, ← hall,
      List.filterMap_flatMap]
  refine ⟨(queries.candidates key).filterMap (queries.entryAt w.directory), ?_, fun id => ?_,
    fun entry hentry => ?_, ?_, hloop, fun limits hlimits fuel hfuel => ?_⟩
  · rw [hids]
    exact hsorted
  · rw [hids]
    exact ChainQueries.mem_candidates hmirrors key id
  · obtain ⟨id, hid, hsome⟩ := List.mem_filterMap.mp hentry
    obtain ⟨found, hfound, hsame⟩ := ChainQueries.entryAt_candidate hmirrors hid
    rw [hfound, Option.some.injEq] at hsome
    rw [← hsome, hsame]
    exact ChainQueries.entryAt_eq_some.mp hfound
  · exact hloop _ (Nat.lt_succ_self _)
  · obtain ⟨before, last, heq, hbefore, hlast, hall⟩ := hpages limits hlimits fuel 0 hfuel
    refine ⟨before.map (queries.entriesPage w.directory), queries.entriesPage w.directory last,
      ?_, fun page hpage => ?_, hlast, ?_⟩
    · rw [ChainQueries.followHistory_eq htotal key hlimits, heq, List.map_append]
      rfl
    · obtain ⟨found, hfound, rfl⟩ := List.mem_map.mp hpage
      obtain ⟨hne, hmore⟩ := hbefore found hfound
      refine ⟨fun hnil => hne ?_, hmore⟩
      have hmem : ∀ id ∈ found.1, id ∈ queries.candidates key := by
        intro id hid
        rw [← hall]
        exact List.mem_flatMap.mpr ⟨found, List.mem_append_left _ hfound, hid⟩
      -- every identity of the page was found, so an empty page had none
      have hback := ChainQueries.ids_entries hmirrors hmem
      have hempty : found.1.filterMap (queries.entryAt w.directory) = [] := hnil
      rw [hempty] at hback
      exact hback.symm
    · rw [← hall, List.filterMap_flatMap, ← List.map_singleton, ← List.map_append, List.flatMap_map]
      rfl

end Setting
end EditChain.Index

namespace EditChain.Index.Setting

open Core Fallible Store

section Witness

local instance historySchema : Schema OpId := messageSchema
local instance historyChecksum : Checksum := crc32cChecksum
local instance historyDigests : Blake3 := messageDigests

/-- Messages without content, each with one fact. -/
local instance historyIndex : IndexSchema OpId ℕ ℕ where
  references _ := []
  keys _ _ := [7]
  items _ := []
  aliases _ := []

/-- The index of a chain with one message. -/
def messageIndex : Except IoError (ChainIndex OpId ℕ ℕ) × Option (State OpId ℕ ℕ) :=
  (ChainIndex.openIndex answering "/chain" (generationName 1 2 3)
    (messageAround (oneSegment messageFrame 2)) (messageAround (oneSegment messageFrame 2))).exec
      none

/-- The history of a chain with one message has the message, also by its fact and in any pages. -/
theorem history_complete_message :
    ∃ (w : Setting OpId ℕ ℕ) (index : ChainIndex OpId ℕ ℕ)
      (entries : List (Engine.HistoryEntry OpId ℕ)),
      Run "/chain" { directory := oneSegment messageFrame 2, truth := fun _ => .missing } w
        ∧ w.handle = some index
        ∧ ChainQueries.allHistory ⟨index⟩ w.directory (some 7) = .ok entries
        ∧ messageId ∈ entries.map (fun entry => Schema.id entry.operation)
        ∧ ∀ limits : ℕ → ℕ, (∀ n, 1 ≤ limits n ∧ limits n ≤ 1000) → ∃ fuel before last,
          ChainQueries.followHistory ⟨index⟩ w.directory (some 7) limits fuel 0 none
              = .ok (before ++ [last])
            ∧ (before ++ [last]).flatMap Engine.QueryPage.items = entries := by
  have hopened : (messageIndex.1.toOption.any fun index =>
      decide (index.get messageId = some messageId)) = true := by
    decide +kernel
  obtain ⟨w, index, hrun, hindex, -, hget⟩ := Run.opened (.of_eq fun _ => rfl) 1 2 3 rfl hopened
  obtain ⟨-, -, hhistory⟩ := history_complete hrun hindex
  obtain ⟨entries, -, hmem, -, hall, -, hpages⟩ := hhistory (some 7)
  have hmessage := (hmem messageId).mpr ⟨messageId, of_decide_eq_true hget, fun fact hfact => by
    rw [← Option.mem_some_iff.mp hfact]
    exact List.mem_singleton_self 7⟩
  refine ⟨w, index, entries, hrun, hindex, hall, hmessage, fun limits hlimits => ?_⟩
  obtain ⟨before, last, hfollow, -, -, hitems⟩ := hpages limits hlimits _ (Nat.lt_succ_self _)
  exact ⟨_, before, last, hfollow, hitems⟩

end Witness
end EditChain.Index.Setting
