import EditChain.Sync.AdapterTheorems
import EditChain.Sync.SharingTheorems

/-!
# The portable adapter and the native replica over one log

A replica that binds an unscoped chain with all its history offers the first occurrence of every
decodable record. A portable adapter that shares everything replays the same records through its
own snapshot, which refuses a log with a record that cannot be decoded.
-/

namespace EditChain.Sync

open Core Fallible Store
open Std (ExtTreeMap ExtTreeSet)

variable {Op : Type} [Schema Op] [Blake3] [Checksum]

/-! ## The two exports -/

/-- `StoreReplica::new(log, blobs, scope)` over a segment store, and its snapshot. -/
def portableSnapshot {B : Type} (storage : BlobStorage B) (log : Writer) (blobs : B)
    (scope : ExportScope) : Except IoError Snapshot :=
  ((StoreReplica.records ⟨SegmentStore.log, storage, ExportScope.policy⟩ true).exec
    (.new log blobs scope)).1

/-- `Replica::open` with backfill, and its snapshot. -/
def nativeSnapshot [ScopeJson] (space : String) (root : Root) : Except IoError Snapshot :=
  match (Replica.openSpace space true).exec root with
  | (.error error, _) => .error error
  | (.ok replica, root') => ((Replica.snapshotFor false).exec ⟨root', replica⟩).1

/-! ## The native export -/

namespace Replica

variable [ScopeJson] {w : Workspace} {α : Type}

omit [Schema Op] [Blake3] [ScopeJson] in
/-- A transaction over any directory: its body finds the files as they were. -/
lemma wp_locked_any {body : Fallible IoError (Workspace × SegmentStore) α}
    {ok : α → Workspace → Prop}
    (hbody : ∀ t : Workspace × SegmentStore, t.1.replica = w.replica →
      t.1.root.scope = w.root.scope → t.1.root.chain.segments = w.root.chain.segments →
      wp body (fun a t' => ok a (closed t')) (fun _ _ => True) t) :
    wp (locked body) ok (fun _ _ => True) w := by
  unfold locked
  rw [wp_bind]
  have hpop : wp (onRoot (Root.pop Io.opens (fun opens io => { io with opens := opens }) {}))
      (fun _ w' => w'.replica = w.replica ∧ Root.Quiet w.root w'.root) (fun _ _ => True) w := by
    unfold onRoot
    rw [wp_zoom]
    apply wp_mono (Root.wp_pop Io.opens _ {})
    · intro _ r hr
      exact ⟨rfl, hr⟩
    · intros
      trivial
  apply wp_mono hpop _ (fun _ _ _ => trivial)
  intro io w₁ hw₁
  have hscope : w₁.root.scope = w.root.scope := by rw [hw₁.2]
  have hchain : w₁.root.chain = w.root.chain := by rw [hw₁.2]
  have hsegments := SegmentStore.openInner_segments false defaultSegmentBytes io w₁.root.chain
  rw [hchain] at hsegments
  unfold wp
  rw [exec_of, hchain]
  cases hopen : SegmentStore.openInner false defaultSegmentBytes io w.root.chain with
  | mk result chain =>
    rw [hopen] at hsegments
    cases result with
    | error error => trivial
    | ok store =>
      have hrun := hbody (withChain chain w₁, store) hw₁.1 hscope hsegments
      simp only
      cases hexec : body.exec (withChain chain w₁, store) with
      | mk result t =>
        cases result with
        | error error => trivial
        | ok a =>
          have ht := wp_eq_ok hrun hexec
          exact ht

/-- Binding an unscoped workspace with backfill saves a scope that excludes nothing. -/
lemma wp_openSpace_any {root : Root} (hscope : root.scope = none) (space : String) :
    wp (openSpace space true)
      (fun replica r' => r'.scope = some { space := space }
        ∧ r'.chain.segments = root.chain.segments ∧ replica.evidence = .new rootPath)
      (fun _ _ => True) root := by
  let w : Workspace := ⟨root, ⟨space, .new rootPath, 0⟩⟩
  have hlocked : wp (locked (inside (bindSpace true)))
      (fun _ w' => w'.root.scope = some { space := space }
        ∧ w'.root.chain.segments = root.chain.segments
        ∧ w'.replica.evidence = .new rootPath) (fun _ _ => True) w := by
    apply wp_locked_any
    intro t hreplica hnone hsegments
    have hspace : t.1.replica.space = space := by rw [hreplica]
    unfold inside bindSpace
    rw [wp_zoom, wp_bind, wp_get, hnone]
    have hunscoped : w.root.scope = none := hscope
    simp only [hunscoped, if_true]
    unfold onRoot
    rw [wp_zoom]
    apply wp_mono (Root.wp_saveScope { space := t.1.replica.space }) _ (fun _ _ _ => trivial)
    intro _ r hr
    refine ⟨?_, ?_, ?_⟩
    · show r.scope = _
      rw [hr, hspace]
    · show r.chain.segments = _
      rw [hr]
      exact hsegments
    · show t.1.replica.evidence = _
      rw [hreplica]
  unfold openSpace wp
  rw [exec_of]
  cases validateSpace space with
  | error e => trivial
  | ok u =>
    simp only
    cases hexec : (locked (inside (bindSpace true))).exec w with
    | mk result w' =>
      cases result with
      | error e => trivial
      | ok u =>
        have hrun := wp_eq_ok hlocked hexec
        exact hrun

/-- A snapshot over any readable directory. -/
lemma wp_snapshotFor_any (hchain : w.root.chain.Readable w.root.chain.segments.size)
    (hfollows : w.replica.evidence.Follows w.root.chain) (receiving : Bool) :
    wp (snapshotFor receiving)
      (fun snapshot w' => Frozen receiving snapshot w' ∧ w'.root.scope = w.root.scope
        ∧ history w'.root.chain = history w.root.chain) (fun _ _ => True) w := by
  unfold snapshotFor
  rw [wp_bind]
  apply wp_mono wp_ensureScope _ (fun _ _ _ => trivial)
  intro _ w₁ hensured
  rw [wp_bind]
  have hchain₁ : w₁.root.chain.Readable w₁.root.chain.segments.size := by
    rw [hensured.1.chain]
    exact hchain
  apply wp_mono (wp_warmEvidence hchain₁ (hensured.1.follows hfollows)) _ (fun _ _ _ => trivial)
  intro _ w₂ hwarm
  have hcalm := hensured.1.trans hwarm
  apply wp_locked_any
  intro t hreplica hscope hsegments
  have hsame : t.1.root.chain.segments = w.root.chain.segments := by
    rw [hsegments, hcalm.chain]
  have hreadable : t.1.root.chain.Readable t.1.root.chain.segments.size := by
    rw [hsame]
    exact Directory.Readable.of_segments hsame hchain
  have hreads : t.1.replica.evidence.Follows t.1.root.chain := by
    rw [hreplica]
    exact (hcalm.follows hfollows).grows (.of_segments hsegments)
  unfold inside
  rw [wp_zoom]
  apply wp_mono (wp_freeze hreadable hreads receiving) _ (fun _ _ _ => trivial)
  intro snapshot w₃ hfrozen
  have hclosed : (closed (w₃, t.2)).root.chain.segments = w₃.root.chain.segments := rfl
  refine ⟨hfrozen.2.withChain hclosed, ?_, ?_⟩
  · show w₃.root.scope = _
    rw [hfrozen.1.scope, hscope, hcalm.scope]
  · apply Wrote.history_eq
    apply wrote_of_segments
    rw [hclosed, hfrozen.1.chain, hsame]

end Replica

/-! ## The portable export -/

omit [Checksum] in
/-- Records that derive keys and do not collide are replayed to the end. -/
lemma insertAll_of_agree {l : List Bytes} {s : Snapshot}
    (hderive : ∀ bytes ∈ l, ∃ key, RecordKey.fromEncoded bytes = .ok key)
    (hagree : ∀ bytes ∈ l, ∀ bytes' ∈ l, ∀ key, RecordKey.fromEncoded bytes = .ok key →
      RecordKey.fromEncoded bytes' = .ok key → bytes = bytes')
    (hold : ∀ bytes ∈ l, ∀ key previous, RecordKey.fromEncoded bytes = .ok key →
      s.record key = some previous → previous = bytes) :
    ∃ t, (insertAll l).exec s = (.ok (), t) := by
  induction l generalizing s with
  | nil => exact ⟨s, rfl⟩
  | cons bytes l ih =>
    obtain ⟨key, hkey⟩ := hderive bytes List.mem_cons_self
    have hinsert : ∃ u, (Snapshot.insertEncoded bytes).exec s = (.ok key, u) := by
      refine ⟨s.insert key bytes hkey, Snapshot.exec_insertEncoded hkey ?_⟩
      intro previous hprevious
      exact hold bytes List.mem_cons_self key previous hkey hprevious
    obtain ⟨u, hu⟩ := hinsert
    have hrest : ∃ t, (insertAll l).exec u = (.ok (), t) := by
      apply ih
      · exact fun b hb => hderive b (List.mem_cons_of_mem _ hb)
      · exact fun b hb b' hb' => hagree b (List.mem_cons_of_mem _ hb) b' (List.mem_cons_of_mem _ hb')
      · intro b hb k previous hk hprevious
        rcases (Snapshot.record_insertEncoded hu k previous).mp hprevious with hs | ⟨rfl, hk'⟩
        · exact hold b (List.mem_cons_of_mem _ hb) k previous hk hs
        · exact hagree _ List.mem_cons_self b (List.mem_cons_of_mem _ hb) k hk' hk
    obtain ⟨t, ht⟩ := hrest
    refine ⟨t, ?_⟩
    unfold insertAll
    rw [exec_bind_of_ok hu]
    exact ht

omit [Blake3] [Checksum] in
lemma permitted_all (entries : List (RecordKey × Bytes)) :
    permitted (fun _ _ => .ok true) entries = .ok (entries.map Prod.fst) := by
  induction entries with
  | nil => rfl
  | cons entry entries ih =>
    unfold permitted
    rw [ih]
    rfl

omit [Checksum] in
/-- A filter that permits everything keeps everything. -/
lemma Snapshot.filtered_all (snapshot : Snapshot) :
    ∃ part, snapshot.filtered (fun _ _ => .ok true) = .ok part
      ∧ ∀ key, part.record key = snapshot.record key := by
  unfold Snapshot.filtered
  rw [permitted_all]
  refine ⟨_, rfl, fun key => ?_⟩
  show (snapshot.records.filter _)[key]? = snapshot.records[key]?
  rw [ExtTreeMap.getElem?_filter']
  cases hrecord : snapshot.records[key]? with
  | none => rfl
  | some bytes =>
    have hmem : (key, bytes) ∈ snapshot.records.toList :=
      ExtTreeMap.mem_toList_iff_getElem?_eq_some.mpr hrecord
    have hkey : key ∈ snapshot.records.toList.map Prod.fst := List.mem_map_of_mem hmem
    rw [Option.filter_some, if_pos (decide_eq_true hkey)]

omit [Schema Op] [Blake3] in
lemma segmentSequences_of_visitRecords {d : Directory} {records : List Record}
    {stats : LogReadStats} (h : SegmentStore.visitRecords d = .ok (records, stats)) :
    ∃ sequences, d.segmentSequences = .ok sequences := by
  unfold SegmentStore.visitRecords at h
  obtain ⟨sequences, hsequences, -⟩ := bind_eq_ok.mp h
  exact ⟨sequences, hsequences⟩

/-- The portable export of a log that can be visited is the replay of its records. -/
lemma portableSnapshot_eq {B : Type} {storage : BlobStorage B} {log : Writer} {blobs : B}
    {name : String} {scope : ExportScope} (hscope : ExportScope.all name = .ok scope)
    {records : List Record} {stats : LogReadStats}
    (hlog : SegmentStore.visitRecords log.directory = .ok (records, stats)) :
    portableSnapshot storage log blobs scope
      = match (insertAll (records.map Record.data)).exec .empty with
        | (.error error, _) => .error error
        | (.ok (), snapshot) => snapshot.filtered fun _ _ => .ok true := by
  obtain ⟨sequences, hsequences⟩ := segmentSequences_of_visitRecords hlog
  have hall : scope.records = none := by
    unfold ExportScope.all at hscope
    split at hscope
    · cases hscope
    · cases hscope
      rfl
  have hsync : SegmentStore.log.sync.exec log = (.ok (), log) := by
    show (do
      let w ← get
      let _sequences ← lift w.directory.segmentSequences
      return () : Fallible IoError Writer Unit).exec log = _
    rw [exec_bind_of_ok (exec_get log), hsequences]
    rfl
  have hvisit : SegmentStore.log.visitRecords.exec log = (.ok (records, stats), log) := by
    show (do
      let w ← get
      lift (SegmentStore.visitRecords w.directory)
        : Fallible IoError Writer (List Record × LogReadStats)).exec log = _
    rw [exec_bind_of_ok (exec_get log), hlog]
    rfl
  unfold portableSnapshot StoreReplica.records StoreReplica.ensureScope StoreReplica.fence
    StoreReplica.retainedEvidence StoreReplica.readRetained StoreReplica.onLog StoreReplica.ask
    StoreReplica.new
  cases hreplay : (insertAll (records.map Record.data)).exec .empty with
  | mk result snapshot =>
    cases result with
    | error error =>
      simp [exec_bind, exec_get, exec_zoom, exec_lift, exec_of, hsync, hvisit, hreplay,
        ExportScope.policy]
    | ok u =>
      simp [exec_bind, exec_get, exec_zoom, exec_lift, exec_of, exec_modify, hsync, hvisit,
        hreplay, ExportScope.policy, StoreReplica.retain, hall]

/-! ## The comparison -/

variable [ScopeJson]

/-- The native export holds the first occurrence of every decodable record. -/
lemma record_nativeSnapshot {space : String} {root : Root} {frozen : Snapshot}
    (hchain : root.chain.Readable root.chain.segments.size) (hscope : root.scope = none)
    (h : nativeSnapshot space root = .ok frozen) :
    (∀ key bytes, frozen.record key = some bytes
        ↔ ∃ record, firstOf (history root.chain) key = some record ∧ record.bytes = bytes)
      ∧ ∀ r ∈ history root.chain, ∀ r' ∈ history root.chain, r.1 = r'.1 →
        r.2.bytes = r'.2.bytes := by
  unfold nativeSnapshot at h
  cases hopen : (Replica.openSpace space true).exec root with
  | mk result root' =>
    rw [hopen] at h
    cases result with
    | error error => cases h
    | ok replica =>
      obtain ⟨hfile, hsegments, hevidence⟩ := wp_eq_ok (Replica.wp_openSpace_any hscope space) hopen
      have hreadable : root'.chain.Readable root'.chain.segments.size := by
        rw [hsegments]
        exact hchain.of_segments hsegments
      have hfollows : replica.evidence.Follows root'.chain := by
        rw [hevidence]
        exact Evidence.follows_new _ _
      have hsnapshot := Replica.wp_snapshotFor_any (w := ⟨root', replica⟩) hreadable hfollows false
      cases hrun : (Replica.snapshotFor false).exec ⟨root', replica⟩ with
      | mk result w' =>
        simp only [hrun] at h
        cases h
        obtain ⟨hfrozen, hscope', hhistory⟩ := wp_eq_ok hsnapshot hrun
        have hsame : history w'.root.chain = history root.chain :=
          hhistory.trans (wrote_of_segments hsegments).history_eq
        rw [hfile] at hscope'
        refine ⟨fun key bytes => ?_, ?_⟩
        · rw [hfrozen.record_iff, hsame]
          constructor
          · rintro ⟨scope, record, -, hfirst, hbytes, -⟩
            exact ⟨record, hfirst, hbytes⟩
          · rintro ⟨record, hfirst, hbytes⟩
            exact ⟨_, record, hscope', hfirst, hbytes, .inl (by simp [Scope.excludes, Scope.beforeCutoff])⟩
        · obtain ⟨-, known, -, hshows, -⟩ := hfrozen.shared
          rw [← hsame]
          exact hshows.agree

/-- Both exports of a log hold the same records exactly if every complete record of it decodes. -/
theorem portable_eq_native {B : Type} {storage : BlobStorage B} {log : Writer} {blobs : B}
    {name : String} {scope : ExportScope} (hall : ExportScope.all name = .ok scope)
    {space : String} {root : Root} (hscope : root.scope = none)
    (hsame : log.directory.segments = root.chain.segments) {records : List Record}
    {stats : LogReadStats} (hlog : SegmentStore.visitRecords log.directory = .ok (records, stats))
    {frozen : Snapshot} (hnative : nativeSnapshot space root = .ok frozen) :
    (∃ snapshot, portableSnapshot storage log blobs scope = .ok snapshot
        ∧ ∀ key, snapshot.record key = frozen.record key)
      ↔ ∀ record ∈ records, ∃ op, Schema.decodeOp record.data = .ok op := by
  obtain ⟨hreadable, hrecords⟩ := visitRecords_eq_ok hlog
  have hchain : root.chain.Readable root.chain.segments.size := by
    rw [← hsame]
    exact hreadable.of_segments hsame.symm
  obtain ⟨hfrozen, hagree⟩ := record_nativeSnapshot hchain hscope hnative
  have hhistory : history root.chain = history log.directory :=
    (wrote_of_segments hsame.symm).history_eq
  rw [hhistory] at hfrozen hagree
  have hbytes : (history log.directory).map (fun r => r.2.bytes)
      = readableBytes (records.map Record.data) := by
    rw [hrecords]
    exact map_bytes_occurrences _ _
  rw [portableSnapshot_eq hall hlog]
  constructor
  · rintro ⟨snapshot, hok, -⟩ record hrecord
    cases hreplay : (insertAll (records.map Record.data)).exec .empty with
    | mk result replayed =>
      rw [hreplay] at hok
      cases result with
      | error error => cases hok
      | ok u =>
        obtain ⟨key, hkey⟩ := derived_insertAll hreplay (List.mem_map_of_mem hrecord)
        exact decodeOp_of_fromEncoded hkey
  · intro hdecode
    -- every record of the log is in the history
    have hmem : ∀ bytes ∈ records.map Record.data, ∃ r ∈ history log.directory, r.2.bytes = bytes := by
      intro bytes hin
      obtain ⟨record, hrecord, rfl⟩ := List.mem_map.mp hin
      obtain ⟨op, hop⟩ := hdecode record hrecord
      apply List.mem_map.mp
      rw [hbytes]
      exact List.mem_filter.mpr ⟨hin, by simp [hop, Except.isOk, Except.toBool]⟩
    have hderive : ∀ bytes ∈ records.map Record.data, ∃ key, RecordKey.fromEncoded bytes = .ok key := by
      intro bytes hin
      obtain ⟨r, hr, rfl⟩ := hmem bytes hin
      exact ⟨r.1, fromEncoded_of_mem hr⟩
    have hcollide : ∀ bytes ∈ records.map Record.data, ∀ bytes' ∈ records.map Record.data, ∀ key,
        RecordKey.fromEncoded bytes = .ok key → RecordKey.fromEncoded bytes' = .ok key →
          bytes = bytes' := by
      intro bytes hin bytes' hin' key hkey hkey'
      obtain ⟨r, hr, rfl⟩ := hmem bytes hin
      obtain ⟨r', hr', rfl⟩ := hmem bytes' hin'
      rw [fromEncoded_of_mem hr] at hkey
      rw [fromEncoded_of_mem hr'] at hkey'
      apply hagree r hr r' hr'
      rw [Except.ok.inj hkey, Except.ok.inj hkey']
    obtain ⟨replayed, hreplay⟩ := insertAll_of_agree (s := .empty) hderive hcollide
      (fun _ _ _ _ _ hprevious => by simp [Snapshot.record, Snapshot.empty] at hprevious)
    obtain ⟨snapshot, hfiltered, hkept⟩ := replayed.filtered_all
    rw [hreplay]
    refine ⟨snapshot, hfiltered, fun key => ?_⟩
    rw [hkept]
    apply Option.ext
    intro bytes
    rw [record_insertAll hreplay, hfrozen]
    constructor
    · rintro (hempty | ⟨hin, hkey⟩)
      · simp [Snapshot.record, Snapshot.empty] at hempty
      · obtain ⟨r, hr, rfl⟩ := hmem bytes hin
        rw [fromEncoded_of_mem hr] at hkey
        cases hkey
        obtain ⟨record, hfirst⟩ := Option.isSome_iff_exists.mp (firstOf_isSome.mpr ⟨r, hr, rfl⟩)
        refine ⟨record, hfirst, ?_⟩
        obtain ⟨r', hr', rfl⟩ := Option.map_eq_some_iff.mp hfirst
        have hkey' : r'.1 = r.1 := by simpa using List.find?_some hr'
        exact hagree r' (List.mem_of_find?_eq_some hr') r hr hkey'
    · rintro ⟨record, hfirst, rfl⟩
      refine .inr ⟨?_, fromEncoded_of_firstOf hfirst⟩
      obtain ⟨r, hr, rfl⟩ := Option.map_eq_some_iff.mp hfirst
      have hin : r.2.bytes ∈ readableBytes (records.map Record.data) := by
        rw [← hbytes]
        exact List.mem_map_of_mem (List.mem_of_find?_eq_some hr)
      exact (List.mem_filter.mp hin).1

end EditChain.Sync

namespace EditChain.Sync

open Core Fallible Store

section Messages

local instance portableSchema : Schema OpId := messageSchema
local instance portableDigests : Blake3 := messageDigests
local instance portableChecksum : Checksum := crc32cChecksum
local instance portableJson : ScopeJson := ⟨fun _ => 0⟩

/-- The log after some records were appended to a new chain. -/
def messageWriter (records : List Bytes) : Writer :=
  let page := records.foldl (fun page bytes => page.addRecord 0 bytes) (Page.new 0)
  match SegmentStore.openInner false 4096 {} Directory.empty with
  | (.ok store, chain) => ((SegmentStore.appendPage page {}).exec ⟨chain, store⟩).2
  | (.error _, chain) => ⟨chain, ⟨0, 0, 0, false, false⟩⟩

/-- The workspace with that log, after the writer was dropped. -/
def messageWorkspace (records : List Bytes) : Root :=
  { chain := { (messageWriter records).directory with lock := .free } }

/-- A message, another variant of it, and the message again. -/
def repeated : List Bytes := [messageV1, messageV3, messageV1]

set_option maxRecDepth 8192 in
/-- A log with a conflict and a duplicate is exported by both, with both variants. -/
theorem portable_eq_native_repeated : ∃ scope frozen snapshot,
    ExportScope.all "space" = .ok scope
      ∧ nativeSnapshot "space" (messageWorkspace repeated) = .ok frozen
      ∧ portableSnapshot memoryBlobs (messageWriter repeated) [] scope = .ok snapshot
      ∧ frozen.len = 2 ∧ ∀ key, snapshot.record key = frozen.record key := by
  have hnative : (nativeSnapshot "space" (messageWorkspace repeated)).toOption.any
      (fun frozen => decide (frozen.len = 2)) = true := by
    decide +kernel
  obtain ⟨frozen, hfrozen, hlen⟩ := (Option.any_eq_true ..).mp hnative
  have hfrozen := toOption_eq_some.mp hfrozen
  have hlog : SegmentStore.visitRecords (messageWriter repeated).directory
      = .ok (repeated.map (⟨0, ·⟩), ⟨0⟩) := by decide +kernel
  have hdecode : ∀ record ∈ repeated.map (Record.mk 0), ∃ op : OpId,
      Schema.decodeOp record.data = .ok op := by
    intro record hrecord
    obtain ⟨bytes, hbytes, rfl⟩ := List.mem_map.mp hrecord
    simp only [repeated, List.mem_cons, List.not_mem_nil, or_false] at hbytes
    rcases hbytes with rfl | rfl | rfl
    all_goals exact ⟨messageId, by decide +kernel⟩
  have hall : ExportScope.all "space" = .ok ⟨"space", none, none⟩ := rfl
  have hboth : ∃ snapshot, portableSnapshot memoryBlobs (messageWriter repeated) []
      ⟨"space", none, none⟩ = .ok snapshot
      ∧ ∀ key, snapshot.record key = frozen.record key :=
    (portable_eq_native hall rfl rfl hlog hfrozen).mpr hdecode
  obtain ⟨snapshot, hportable, hsame⟩ := hboth
  exact ⟨_, frozen, snapshot, hall, hfrozen, hportable, of_decide_eq_true hlen, hsame⟩

/-- One record that cannot be decoded stops the portable export and not the native one. -/
theorem portable_refuses_undecodable : ∃ records stats scope frozen,
    SegmentStore.visitRecords (messageWriter [messageV1, [1]]).directory = .ok (records, stats)
      ∧ ExportScope.all "space" = .ok scope
      ∧ nativeSnapshot "space" (messageWorkspace [messageV1, [1]]) = .ok frozen
      ∧ ∀ snapshot, portableSnapshot memoryBlobs (messageWriter [messageV1, [1]]) [] scope
        ≠ .ok snapshot := by
  have hnative : (nativeSnapshot "space" (messageWorkspace [messageV1, [1]])).isOk = true := by
    decide +kernel
  have hportable : (portableSnapshot memoryBlobs (messageWriter [messageV1, [1]]) []
      ⟨"space", none, none⟩).isOk = false := by
    decide +kernel
  cases hfrozen : nativeSnapshot "space" (messageWorkspace [messageV1, [1]]) with
  | error error =>
    rw [hfrozen] at hnative
    cases hnative
  | ok frozen =>
    refine ⟨[⟨0, messageV1⟩, ⟨0, [1]⟩], ⟨0⟩, ⟨"space", none, none⟩, frozen, by decide +kernel, rfl,
      rfl, fun snapshot hok => ?_⟩
    rw [hok] at hportable
    cases hportable

end Messages

end EditChain.Sync
