import EditChain.Store.PowerLoss

/-!
# Acknowledged records survive

The segment store fulfils the contract of an append log, so an acknowledged record is on stable
storage, and what is stable is read again after any power loss.
-/

namespace EditChain.Store

open Core Fallible UnitReader SegmentStore

variable [Checksum]

/-! ## The records of a segment -/

@[simp] lemma recordsIn_nil : recordsIn [] = [] := by
  unfold recordsIn
  rw [run_nil]
  rfl

lemma recordsOf_eq (d : Directory) (n : ℕ) : d.recordsOf n = recordsIn (d.bytesAt n) := rfl

/-- More bytes have the same records first. -/
lemma recordsIn_mono {x y : Bytes} (h : x <+: y) : recordsIn x <+: recordsIn y := by
  obtain ⟨z, rfl⟩ := h
  unfold recordsIn
  by_cases hbad : ∃ e, (pages.run none x).ending = .bad e
  · obtain ⟨e, hbad⟩ := hbad
    rw [run_append_of_bad none x z hbad]
  · rw [run_append none x z (fun e he => hbad ⟨e, he⟩)]
    simp only [Scan.prepend]
    rw [PageScanner.unitItems_append, itemRecords_append]
    exact List.prefix_append _ _

lemma mem_survivors {d : Directory} {stable : ℕ → ℕ} {record : Record} :
    record ∈ d.survivors stable ↔ ∃ n, record ∈ recordsIn ((d.bytesAt n).take (stable n)) := by
  unfold Directory.survivors
  rw [List.mem_flatMap]
  constructor
  · rintro ⟨n, -, hmem⟩
    exact ⟨n, hmem⟩
  · rintro ⟨n, hmem⟩
    refine ⟨n, ?_, hmem⟩
    rw [Std.ExtTreeMap.mem_keys, Std.ExtTreeMap.mem_iff_isSome_getElem?]
    by_contra hnone
    rw [Option.not_isSome_iff_eq_none] at hnone
    rw [Directory.bytesAt_of_none hnone, List.take_nil, recordsIn_nil] at hmem
    cases hmem

/-- What was stable stays so where nothing of it is lost. -/
lemma survivors_subset {d d' : Directory} {stable stable' : ℕ → ℕ}
    (h : ∀ n, (d.bytesAt n).take (stable n) <+: (d'.bytesAt n).take (stable' n)) :
    d.survivors stable ⊆ d'.survivors stable' := by
  intro record hrecord
  obtain ⟨n, hmem⟩ := mem_survivors.mp hrecord
  exact mem_survivors.mpr ⟨n, (recordsIn_mono (h n)).subset hmem⟩

/-! ## Directories -/

/-- All records of a directory of shapes. -/
lemma Holds.recordsBelow {d : Directory} {shapes : List Shape} (h : Holds d shapes) :
    d.recordsBelow shapes.length = allRecords shapes := by
  obtain ⟨hreadable, hrecords⟩ := visitRecords_eq_ok h.visitRecords
  rw [hrecords]
  have hsize : d.segments.size = shapes.length := by
    rw [← Std.ExtTreeMap.length_keys, keys_eq_range h.isSome, List.length_range]
  rw [hsize]

lemma mem_allRecords {d : Directory} {shapes : List Shape} (h : Holds d shapes) {record : Record} :
    record ∈ allRecords shapes ↔ ∃ n, record ∈ d.recordsOf n := by
  rw [← h.recordsBelow]
  unfold Directory.recordsBelow
  rw [List.mem_flatMap]
  constructor
  · rintro ⟨n, -, hmem⟩
    exact ⟨n, hmem⟩
  · rintro ⟨n, hmem⟩
    refine ⟨n, List.mem_range.mpr ?_, hmem⟩
    rw [← h.isSome]
    by_contra hnone
    rw [Option.not_isSome_iff_eq_none] at hnone
    rw [recordsOf_eq, Directory.bytesAt_of_none hnone, recordsIn_nil] at hmem
    cases hmem

lemma allRecords_subset {d : Directory} {shapes : List Shape} (h : Holds d shapes)
    (stable : ℕ → ℕ) : d.survivors stable ⊆ allRecords shapes := by
  intro record hrecord
  obtain ⟨n, hmem⟩ := mem_survivors.mp hrecord
  exact (mem_allRecords h).mpr ⟨n, (recordsIn_mono (List.take_prefix _ _)).subset hmem⟩

/-- The records that are new in a directory are in segments that have grown. -/
lemma mem_grown {d d' : Directory} {shapes shapes' : List Shape} {added : List Record}
    (h : Holds d shapes) (h' : Holds d' shapes') (hextends : Extends d d' shapes shapes' added)
    {record : Record} (hrecord : record ∈ added) :
    ∃ n, record ∈ d'.recordsOf n ∧ (d.bytesAt n).length < (d'.bytesAt n).length := by
  have hgrows := hextends.grows
  have hsame : ∀ n, ¬ (d.bytesAt n).length < (d'.bytesAt n).length →
      d'.recordsOf n = d.recordsOf n := by
    intro n hnot
    rw [recordsOf_eq, recordsOf_eq,
      (hgrows.bytesAt n).eq_of_length_le (Nat.le_of_not_lt hnot)]
  have hle : shapes.length ≤ shapes'.length := by
    by_contra hlt
    have hsome := (h.isSome shapes'.length).mpr (by omega)
    obtain ⟨file, hfile⟩ := Option.isSome_iff_exists.mp hsome
    obtain ⟨file', hfile', -⟩ := hgrows.kept _ file hfile
    have hin := (h'.isSome shapes'.length).mp (by rw [hfile']; rfl)
    omega
  -- a record of a new segment
  have hnew : ∀ n, shapes.length ≤ n → record ∈ d'.recordsOf n →
      (d.bytesAt n).length < (d'.bytesAt n).length := by
    intro n hn hmem
    by_contra hnot
    have hnone : d.segments[n]? = none := by
      rw [← Option.not_isSome_iff_eq_none, h.isSome]
      omega
    rw [hsame n hnot, recordsOf_eq, Directory.bytesAt_of_none hnone, recordsIn_nil] at hmem
    cases hmem
  have hall := hextends.records
  rw [← h.recordsBelow, ← h'.recordsBelow] at hall
  unfold Directory.recordsBelow at hall
  obtain ⟨more, hmore⟩ := Nat.exists_eq_add_of_le hle
  rw [hmore, List.range_add, List.flatMap_append, List.flatMap_map] at hall
  have hrest : record ∈ (List.range more).flatMap (fun i => d'.recordsOf (shapes.length + i)) →
      ∃ n, record ∈ d'.recordsOf n ∧ (d.bytesAt n).length < (d'.bytesAt n).length := by
    intro hmem
    obtain ⟨i, -, hi⟩ := List.mem_flatMap.mp hmem
    exact ⟨_, hi, hnew _ (Nat.le_add_right _ _) hi⟩
  -- only the last segment and new ones can have grown
  cases hlen : shapes.length with
  | zero =>
    rw [hlen] at hall hrest
    rw [List.range_zero, List.flatMap_nil, List.flatMap_nil, List.nil_append, List.nil_append]
      at hall
    exact hrest (hall ▸ hrecord)
  | succ last =>
    have hlast : d.segments[last]? ≠ none := by
      rw [← Option.isSome_iff_ne_none, h.isSome]
      omega
    have hbefore : (List.range last).flatMap d'.recordsOf
        = (List.range last).flatMap d.recordsOf := by
      refine List.flatMap_congr fun n hn => ?_
      rw [recordsOf_eq, recordsOf_eq, hgrows.bytesAt_eq (List.mem_range.mp hn) hlast]
    rw [hlen] at hall hrest
    rw [List.range_succ, List.flatMap_append, List.flatMap_append, List.flatMap_singleton,
      List.flatMap_singleton, hbefore, List.append_assoc, List.append_assoc,
      List.append_cancel_left_eq] at hall
    by_cases hgrown : (d.bytesAt last).length < (d'.bytesAt last).length
    · have hmem : record ∈ d'.recordsOf last
          ++ (List.range more).flatMap fun i => d'.recordsOf (last + 1 + i) := by
        rw [hall]
        exact List.mem_append_right _ hrecord
      rcases List.mem_append.mp hmem with hmem | hmem
      · exact ⟨last, hmem, hgrown⟩
      · exact hrest hmem
    · rw [hsame last hgrown, List.append_cancel_left_eq] at hall
      exact hrest (hall ▸ hrecord)

/-! ## The contract -/

/-- Records, those that are safe marked durable. -/
def markedEntries (safe : List Record) (records : List Record) : List Entry :=
  records.map fun record => ⟨record, decide (record ∈ safe)⟩

omit [Checksum] in
lemma map_markedEntries (safe records : List Record) :
    (markedEntries safe records).map Entry.record = records := by
  unfold markedEntries
  rw [List.map_map]
  exact List.map_id _

omit [Checksum] in
lemma settles_markedEntries {safe safe' : List Record} (h : safe ⊆ safe') (records : List Record) :
    Settles (markedEntries safe records) (markedEntries safe' records) := by
  unfold Settles markedEntries
  rw [List.forall₂_map_left_iff, List.forall₂_map_right_iff, List.forall₂_same]
  intro record _
  exact ⟨rfl, fun hdurable => decide_eq_true (h (of_decide_eq_true hdurable))⟩

namespace Mounted

variable (m : Mounted)

/-- The complete records in the log, those that are stable durable. -/
def entries : List Entry :=
  markedEntries (m.writer.directory.survivors m.stable)
    (m.writer.directory.recordsBelow m.writer.directory.segments.size)

lemma recordsBelow_size {m : Mounted} {shapes : List Shape} (h : Good m.writer shapes) :
    m.writer.directory.recordsBelow m.writer.directory.segments.size = allRecords shapes :=
  (visitRecords_eq_ok h.holds.visitRecords).2.symm

/-- A record that survives is a durable entry. -/
lemma mem_entries {m : Mounted} {record : Record}
    (h : record ∈ m.writer.directory.survivors m.stable) : ⟨record, true⟩ ∈ m.entries := by
  obtain ⟨shapes, hgood⟩ := m.good
  refine List.mem_map.mpr ⟨record, ?_, by rw [decide_eq_true h]⟩
  rw [recordsBelow_size hgood]
  exact allRecords_subset hgood.holds _ h

/-- Where nothing is written, the entries are the same, and what was durable is. -/
lemma settles_entries {m m' : Mounted} (hdirectory : m'.writer.directory = m.writer.directory)
    (hstable : ∀ n, m.stable n ≤ m'.stable n) : Settles m.entries m'.entries := by
  unfold entries
  rw [hdirectory]
  exact settles_markedEntries (survivors_subset fun n =>
    (List.take_prefix_take_left (hstable n))) _

/-- An append adds some first records of the call; one that succeeds adds all of them, durable. -/
lemma append_spec (records : List Record) : ∃ old added, (m.append records).2.entries = old ++ added
    ∧ Settles m.entries old ∧ added.map Entry.record <+: records
    ∧ ((m.append records).1 = .ok () →
      added.map Entry.record = records ∧ ∀ e ∈ added, e.durable) := by
  obtain ⟨shapes, shapes', added, hgood, hgood', hextends, hadded, hall⟩ :=
    m.appended_spec records
  have hsafe : m.writer.directory.survivors m.stable
      ⊆ (m.appended records).2.directory.survivors (m.stableAfterAppend records) := by
    refine survivors_subset fun n => ?_
    have hle := m.stable_le_stableAfterAppend records n
    have hkept := hextends.grows.bytesAt n
    rw [List.prefix_iff_eq_take.mp hkept, List.take_take, min_eq_left (m.within n)]
    exact List.take_prefix_take_left hle
  have hentries : (m.append records).2.entries
      = markedEntries ((m.appended records).2.directory.survivors (m.stableAfterAppend records))
          (allRecords shapes)
        ++ markedEntries ((m.appended records).2.directory.survivors (m.stableAfterAppend records))
          added := by
    unfold markedEntries
    rw [← List.map_append, ← hextends.records]
    show markedEntries _ _ = _
    rw [recordsBelow_size (m := (m.append records).2) hgood']
    rfl
  refine ⟨_, _, hentries, ?_, ?_, fun hok => ⟨?_, ?_⟩⟩
  · unfold entries
    rw [recordsBelow_size hgood]
    exact settles_markedEntries hsafe _
  · rw [map_markedEntries]
    exact hadded
  · rw [map_markedEntries]
    exact hall hok
  · intro e he
    obtain ⟨record, hrecord, rfl⟩ := List.mem_map.mp he
    refine decide_eq_true (mem_survivors.mpr ?_)
    -- a call that succeeds syncs every segment that it has grown
    obtain ⟨n, hmem, hgrown⟩ := mem_grown hgood.holds hgood'.holds hextends hrecord
    refine ⟨n, ?_⟩
    have hstable : m.stableAfterAppend records n
        = ((m.appended records).2.directory.bytesAt n).length := by
      have hisOk : (m.appended records).1.isOk = true := congrArg Except.isOk hok
      unfold stableAfterAppend stableAfter
      rw [if_pos hisOk, if_pos hgrown]
    rw [hstable, List.take_length]
    exact hmem

/-- A segment store that is in use is a lawful append log. -/
def lawful : Lawful log where
  entries := entries
  visit {s t r} h := by
    obtain ⟨rfl, rfl⟩ := Prod.mk.inj h
    refine ⟨settles_entries rfl fun _ => le_refl _, fun records stats hok => ?_⟩
    show records = s.entries.map Entry.record
    unfold entries
    rw [map_markedEntries]
    cases hfault : s.schedule.visits.headD none with
    | some error =>
      rw [hfault] at hok
      cases hok
    | none =>
      rw [hfault] at hok
      exact (visitRecords_eq_ok hok).2
  sync {s t r} h := by
    obtain ⟨rfl, rfl⟩ := Prod.mk.inj h
    refine ⟨settles_entries rfl fun n => ?_, fun hok e he => ?_⟩
    · have hwithin := s.within n
      show s.stable n ≤ if s.synced.isOk then (s.writer.directory.bytesAt n).length else s.stable n
      split <;> omega
    · obtain ⟨record, hrecord, rfl⟩ := List.mem_map.mp he
      refine decide_eq_true (mem_survivors.mpr ?_)
      obtain ⟨n, -, hmem⟩ := List.mem_flatMap.mp hrecord
      refine ⟨n, ?_⟩
      have hsynced : s.synced.isOk = true := congrArg Except.isOk hok
      show record ∈ recordsIn ((s.writer.directory.bytesAt n).take
        (if s.synced.isOk then (s.writer.directory.bytesAt n).length else s.stable n))
      rw [if_pos hsynced, List.take_length]
      exact hmem
  append {records s t r} h := by
    obtain ⟨rfl, rfl⟩ := Prod.mk.inj h
    exact s.append_spec records

end Mounted

/-! ## Batches -/

namespace LogStore

variable {Op L : Type} [Schema Op] {log : AppendLog L} (law : Lawful log)

omit [Checksum] in
/-- Reading the evidence keeps what is durable. -/
lemma durable_takeEvidence {s t : LogStore L} {r : Except IoError OpSet}
    (h : (takeEvidence log).exec s = (r, t)) {b : Bytes} (hb : law.Durable s.log b) :
    law.Durable t.log b := by
  unfold takeEvidence at h
  rw [exec_bind_of_ok (exec_get s), exec_bind_of_ok (exec_set _ s)] at h
  cases hcached : s.evidence with
  | some evidence =>
    rw [hcached] at h
    cases h
    exact hb
  | none =>
    rw [hcached] at h
    simp only [exec_onLog, readEvidence, exec_bind] at h
    cases hvisit : log.visitRecords.exec s.log with
    | mk result after =>
      rw [hvisit] at h
      have hafter := law.durable_visit hvisit hb
      cases result with
      | error e =>
        cases h
        exact hafter
      | ok visited =>
        cases h
        exact hafter

omit [Checksum] [Schema Op] in
/-- A commit keeps what is durable, whether it fails or not. -/
lemma durable_commit {batch : Batch} {s t : LogStore L} {r : Except IoError (List Admission)}
    (h : (commit log batch).exec s = (r, t)) {b : Bytes} (hb : law.Durable s.log b) :
    law.Durable t.log b := by
  have happended : ∀ {s t : LogStore L} {r : Except IoError (List Admission)},
      law.Durable s.log b →
      (onLog (log.appendRecords batch.pending) >>= fun _ => (do
        modify fun s => { s with evidence := some batch.evidence }
        return batch.admissions : Fallible IoError (LogStore L) (List Admission))).exec s = (r, t) →
      law.Durable t.log b := by
    intro s t r hb h
    rw [exec_bind, exec_onLog] at h
    cases happend : (log.appendRecords batch.pending).exec s.log with
    | mk result after =>
      rw [happend] at h
      have hafter := law.durable_append happend hb
      cases result with
      | error error =>
        cases h
        exact hafter
      | ok _ =>
        cases h
        exact hafter
  -- a commit may sync first
  unfold commit at h
  by_cases hfence : batch.fence = true
  · rw [if_pos hfence, exec_bind, exec_onLog] at h
    cases hsync : log.sync.exec s.log with
    | mk result after =>
      rw [hsync] at h
      have hafter := law.durable_sync hsync hb
      cases result with
      | error error =>
        cases h
        exact hafter
      | ok _ => exact happended hafter h
  · rw [if_neg hfence] at h
    exact happended hb h

omit [Checksum] in
/-- What is durable stays so over a batch, whether it fails or not. -/
lemma durable_batch {records : List Bytes} {s t : LogStore L} {r : Except IoError (List Admission)}
    (h : (appendEncodedBatch log records).exec s = (r, t)) {b : Bytes}
    (hb : law.Durable s.log b) : law.Durable t.log b := by
  unfold appendEncodedBatch at h
  rw [exec_bind, exec_lift] at h
  cases hids : records.mapM (validateRecord) with
  | error error =>
    rw [hids] at h
    cases h
    exact hb
  | ok ids =>
    rw [hids] at h
    dsimp only at h
    by_cases hempty : records = []
    · rw [if_pos hempty] at h
      cases h
      exact hb
    · rw [if_neg hempty, exec_bind] at h
      cases htake : (takeEvidence log).exec s with
      | mk result middle =>
        rw [htake] at h
        have hmiddle := durable_takeEvidence law htake hb
        cases result with
        | error error =>
          cases h
          exact hmiddle
        | ok evidence => exact durable_commit law h hmiddle

end LogStore

/-! ## Power loss -/

/-- What is left of a segment is whole frames and perhaps a torn one. -/
lemma Shape.Valid.cut {s : Shape} (h : s.Valid) {bytes : Bytes} (hcut : bytes <+: s.bytes) :
    ∃ s' : Shape, s'.Valid ∧ s'.bytes = bytes := by
  obtain ⟨frames, torn⟩ := s
  induction frames generalizing bytes with
  | nil =>
    obtain ⟨sequence, records, hfits, htorn, hlt⟩ := h.torn
    have hbytes : bytes <+: torn := hcut
    refine ⟨⟨[], bytes⟩, ⟨fun f hf => (by cases hf), sequence, records, hfits,
      hbytes.trans htorn, ?_⟩, rfl⟩
    have hle := hbytes.length_le
    exact lt_of_le_of_lt hle hlt
  | cons f frames ih =>
    have hrest : Shape.Valid ⟨frames, torn⟩ := ⟨fun g hg => h.frames g (by simp [hg]), h.torn⟩
    have hfits : Fits f.2 := h.frames f (by simp)
    have hbytes : Shape.bytes ⟨f :: frames, torn⟩
        = frameBytes f.1 f.2 ++ Shape.bytes ⟨frames, torn⟩ := by
      simp [Shape.bytes]
    rw [hbytes] at hcut
    by_cases hlt : bytes.length < frameSize f.2
    · -- the loss is within the first frame
      refine ⟨⟨[], bytes⟩, ⟨fun g hg => (by cases hg), f.1, f.2, hfits, ?_, hlt⟩, rfl⟩
      refine List.prefix_of_prefix_length_le hcut (List.prefix_append _ _) ?_
      rw [length_frameBytes]
      exact hlt.le
    · obtain ⟨rest, hsplit⟩ : frameBytes f.1 f.2 <+: bytes := by
        refine List.prefix_of_prefix_length_le (List.prefix_append _ _) hcut ?_
        rw [length_frameBytes]
        exact Nat.le_of_not_lt hlt
      rw [← hsplit, List.prefix_append_right_inj] at hcut
      obtain ⟨s', hvalid, hs'⟩ := ih hrest hcut
      refine ⟨⟨f :: s'.frames, s'.torn⟩, ⟨?_, hvalid.torn⟩, ?_⟩
      · intro g hg
        rcases List.mem_cons.mp hg with rfl | hg
        · exact hfits
        · exact hvalid.frames g hg
      · rw [← hsplit, ← hs']
        simp [Shape.bytes]

namespace PowerLoss

variable {d d' : Directory} {stable : ℕ → ℕ} {shapes : List Shape}

omit [Checksum] in
/-- The segments that are left are the first ones. -/
lemma exists_dense (h : PowerLoss d stable d') {k : ℕ}
    (hdense : ∀ n : ℕ, d.segments[n]?.isSome ↔ n < k) :
    ∃ k' ≤ k, ∀ n : ℕ, d'.segments[n]?.isSome ↔ n < k' := by
  classical
  have hnone : ∃ n : ℕ, ¬ d'.segments[n]?.isSome :=
    ⟨k, fun hsome => absurd ((hdense k).mp (h.present k hsome)) (lt_irrefl k)⟩
  refine ⟨Nat.find hnone, Nat.find_min' hnone fun hsome =>
    absurd ((hdense k).mp (h.present k hsome)) (lt_irrefl k),
    fun n => ⟨fun hsome => ?_, fun hn => ?_⟩⟩
  · by_contra hle
    rcases Nat.lt_or_eq_of_le (Nat.le_of_not_lt hle) with hlt | heq
    · exact Nat.find_spec hnone (h.ordered _ n hlt hsome)
    · exact Nat.find_spec hnone (heq ▸ hsome)
  · exact not_not.mp (Nat.find_min hnone hn)

/-- What a power loss leaves is a directory that the store can open. -/
lemma holds (h : PowerLoss d stable d') (hholds : Holds d shapes) :
    ∃ shapes', Holds d' shapes' := by
  obtain ⟨k, hk, hdense⟩ := h.exists_dense hholds.isSome
  have hcut : ∀ n, ∃ s : Shape, s.Valid ∧ s.bytes = d'.bytesAt n := by
    intro n
    by_cases hn : n < shapes.length
    · have hs : shapes[n]? = some shapes[n] := List.getElem?_eq_getElem hn
      have hbytes : d.bytesAt n = shapes[n].bytes := by
        unfold Directory.bytesAt
        rw [hholds.segments, hs]
        rfl
      exact (hholds.valid _ (List.mem_of_getElem? hs)).cut (hbytes ▸ h.kept n)
    · have hnone : d'.segments[n]? = none := by
        rw [← Option.not_isSome_iff_eq_none, hdense]
        omega
      refine ⟨⟨[], []⟩, ⟨fun f hf => (by cases hf), Shape.torn_nil⟩, ?_⟩
      rw [Directory.bytesAt_of_none hnone]
      rfl
  choose shapeAt hvalid hbytes using hcut
  -- the segments that are left have the shapes of what is left of each
  refine ⟨(List.range k).map shapeAt, ⟨fun n => ?_, fun s hs => ?_, ?_, ?_, ?_, ?_⟩⟩
  · rw [List.getElem?_map, Option.map_map]
    by_cases hn : n < k
    · obtain ⟨file, hfile⟩ := Option.isSome_iff_exists.mp ((hdense n).mpr hn)
      rw [List.getElem?_range hn, hfile, Option.map_some, Option.map_some]
      exact congrArg some ((Directory.bytesAt_of_some hfile).symm.trans (hbytes n).symm)
    · have hnone : d'.segments[n]? = none := by
        rw [← Option.not_isSome_iff_eq_none, hdense]
        exact hn
      rw [hnone, List.getElem?_eq_none (by simpa using hn)]
      rfl
  · obtain ⟨n, -, rfl⟩ := List.mem_map.mp hs
    exact hvalid n
  · have hbounded := hholds.bounded
    rw [List.length_map, List.length_range]
    omega
  · rcases h.marker with hmarker | hmarker
    · exact .inl hmarker
    · rw [hmarker]
      exact hholds.marker
  · rw [h.named]
    exact hholds.named
  · rw [h.settled]
    exact hholds.settled

end PowerLoss

/-! ## Runs -/

namespace Site

variable {Op : Type} [Schema Op] {site site' : Site}

/-- The invariant of a chain whatever happens to it. -/
structure Sound (Op : Type) [Schema Op] (site : Site) : Prop where
  shaped : ∃ shapes, Holds site.usage.directory shapes
  within : ∀ n, site.usage.stable n ≤ (site.usage.directory.bytesAt n).length
  /-- Only an open writer holds the lock. -/
  released : ∀ d stable, site.usage = .idle d stable → d.lock ≠ .held
  coherent : ∀ store, site.usage = .used store →
    LogStore.Coherent Mounted.lawful store
  survives : ∀ b ∈ site.acknowledged, (∃ id, Decodes id b)
    ∧ ∃ record ∈ site.usage.directory.survivors site.usage.stable, record.data = b

lemma sound_empty : Sound Op empty where
  shaped := ⟨[], by
    refine ⟨fun n => ?_, fun s hs => (by cases hs), Nat.zero_le _, .inl rfl, rfl, rfl⟩
    show (Directory.empty.segments[n]?).map SegmentFile.bytes = none
    unfold Directory.empty
    simp⟩
  within _ := Nat.zero_le _
  released d stable h := by
    cases h
    exact fun hheld => WriterLock.noConfusion hheld
  coherent store h := by cases h
  survives b hb := by cases hb

omit [Schema Op] in
/-- A durable record of a store in use survives. -/
lemma survives_of_durable {m : Mounted} {b : Bytes} (h : Mounted.lawful.Durable m b) :
    ∃ record ∈ m.writer.directory.survivors m.stable, record.data = b := by
  obtain ⟨e, he, hdata, hdurable⟩ := h
  obtain ⟨record, -, rfl⟩ := List.mem_map.mp he
  exact ⟨record, of_decide_eq_true hdurable, hdata⟩

omit [Schema Op] in
lemma durable_of_survives {m : Mounted} {b : Bytes}
    (h : ∃ record ∈ m.writer.directory.survivors m.stable, record.data = b) :
    Mounted.lawful.Durable m b := by
  obtain ⟨record, hrecord, rfl⟩ := h
  obtain ⟨shapes, hgood⟩ := m.good
  refine ⟨⟨record, decide (record ∈ m.writer.directory.survivors m.stable)⟩, ?_, rfl,
    decide_eq_true hrecord⟩
  refine List.mem_map.mpr ⟨record, ?_, rfl⟩
  rw [Mounted.recordsBelow_size hgood]
  exact allRecords_subset hgood.holds _ hrecord

omit [Schema Op] in
/-- The same segments have the same survivors. -/
lemma survivors_of_segments {d d' : Directory} (h : d'.segments = d.segments) (stable : ℕ → ℕ) :
    d'.survivors stable = d.survivors stable := by
  unfold Directory.survivors Directory.bytesAt
  rw [h]

omit [Schema Op] [Checksum] in
lemma bytesAt_of_segments {d d' : Directory} (h : d'.segments = d.segments) (n : ℕ) :
    d'.bytesAt n = d.bytesAt n := by
  unfold Directory.bytesAt
  rw [h]

/-- Every step keeps the invariant. -/
lemma Step.sound (h : Sound Op site) (hstep : Step Op site site') : Sound Op site' := by
  cases hstep with
  | @opened d d' stable acknowledged store maxSegmentBytes io m hopen hwriter hstable =>
    obtain ⟨shapes, hshapes⟩ := h.shaped
    have hdirectory : m.writer.directory = d' := by rw [hwriter]
    rcases openInner_good hshapes (h.released d stable rfl) hopen with
      ⟨found, hfound, hgood, hsegments⟩ | ⟨error, herror, -⟩
    · refine ⟨⟨shapes, ?_⟩, m.within, fun directory known hidle => (by cases hidle),
        fun used hused e he => ?_, fun b hb => ?_⟩
      · show Holds m.writer.directory shapes
        rw [hdirectory]
        exact hgood.holds
      · -- a store that was just opened has no evidence yet
        cases hused
        cases he
      · obtain ⟨hdecodes, hsurvives⟩ := h.survives b hb
        refine ⟨hdecodes, ?_⟩
        show ∃ record ∈ m.writer.directory.survivors m.stable, record.data = b
        rw [hdirectory, hstable, survivors_of_segments hsegments]
        exact hsurvives
    · cases herror
  | @refused d d' stable acknowledged error maxSegmentBytes io hopen =>
    obtain ⟨shapes, hshapes⟩ := h.shaped
    rcases openInner_good hshapes (h.released d stable rfl) hopen with
      ⟨found, hfound, -⟩ | ⟨other, -, hholds, hlock, hsegments, -⟩
    · cases hfound
    · refine ⟨⟨shapes, hholds⟩, fun n => ?_, fun directory known hidle => ?_,
        fun used hused => (by cases hused), fun b hb => ?_⟩
      · show stable n ≤ (d'.bytesAt n).length
        rw [bytesAt_of_segments hsegments]
        exact h.within n
      · cases hidle
        exact hlock
      · obtain ⟨hdecodes, hsurvives⟩ := h.survives b hb
        refine ⟨hdecodes, ?_⟩
        show ∃ record ∈ d'.survivors stable, record.data = b
        rw [survivors_of_segments hsegments]
        exact hsurvives
  | @appended store store' acknowledged records result happend =>
    have hcoherent := h.coherent store rfl
    obtain ⟨shapes, hgood⟩ := store'.log.good
    have houtcome := LogStore.appendEncodedBatch_outcome Mounted.lawful hcoherent happend
    refine ⟨⟨shapes, hgood.holds⟩, store'.log.within, fun directory known hidle => (by cases hidle),
      fun used hused => ?_, fun b hb => ?_⟩
    · cases hused
      exact (LogStore.coherent_of_outcome Mounted.lawful hcoherent houtcome).1
    · by_cases hold : b ∈ acknowledged
      · obtain ⟨hdecodes, hsurvives⟩ := h.survives b hold
        exact ⟨hdecodes, survives_of_durable
          (LogStore.durable_batch Mounted.lawful happend (durable_of_survives hsurvives))⟩
      · -- what a successful call acknowledges is durable
        cases result with
        | error error => exact absurd hb hold
        | ok admissions =>
          obtain ⟨ids, hids, -, -, hdurable⟩ :=
            LogStore.appendEncodedBatch_eq_ok Mounted.lawful hcoherent happend
          have hnew : b ∈ records := (List.mem_append.mp hb).resolve_left hold
          obtain ⟨hdecodes, hzip⟩ := LogStore.mapM_validateRecord hids
          obtain ⟨id, hid⟩ := hzip b hnew
          exact ⟨⟨id, hdecodes _ hid⟩, survives_of_durable (hdurable b hnew)⟩
  | @closed store acknowledged =>
    obtain ⟨shapes, hgood⟩ := store.log.good
    have hsame : (close store.log.writer).segments = store.log.writer.directory.segments := rfl
    have hholds := hgood.holds
    refine ⟨⟨shapes, hholds.segments, hholds.valid, hholds.bounded, hholds.marker, hholds.named,
      hholds.settled⟩, fun n => ?_, fun directory known hidle => ?_, fun used hused => ?_,
      fun b hb => ?_⟩
    · show store.log.stable n ≤ ((close store.log.writer).bytesAt n).length
      rw [bytesAt_of_segments hsame]
      exact store.log.within n
    · cases hidle
      exact fun hheld => WriterLock.noConfusion hheld
    · cases hused
    · obtain ⟨hdecodes, hsurvives⟩ := h.survives b hb
      refine ⟨hdecodes, ?_⟩
      show ∃ record ∈ (close store.log.writer).survivors store.log.stable, record.data = b
      rw [survivors_of_segments hsame]
      exact hsurvives
  | @lost usage acknowledged d' hloss =>
    obtain ⟨shapes, hshapes⟩ := h.shaped
    refine ⟨hloss.holds hshapes, fun n => ?_, fun directory known hidle => ?_,
      fun used hused => (by cases hused), fun b hb => ?_⟩
    · have hlength := (hloss.stable n).length_le
      rw [List.length_take, min_eq_left (h.within n)] at hlength
      exact hlength
    · cases hidle
      exact hloss.released
    · obtain ⟨hdecodes, record, hrecord, hdata⟩ := h.survives b hb
      refine ⟨hdecodes, record, survivors_subset (fun n => ?_) hrecord, hdata⟩
      -- the bytes that are stable are at the front of what is left
      refine List.prefix_take_iff.mpr ⟨hloss.stable n, ?_⟩
      rw [List.length_take]
      exact min_le_left _ _

/-- Any number of steps. -/
def Run (Op : Type) [Schema Op] : Site → Site → Prop := Relation.ReflTransGen (Step Op)

/-- Every run keeps the invariant. -/
lemma Run.sound (h : Sound Op site) (hrun : Run Op site site') : Sound Op site' := by
  induction hrun with
  | refl => exact h
  | tail _ hstep ih => exact Step.sound ih hstep

end Site
end EditChain.Store

namespace EditChain.Store.Site

open Core Fallible SegmentStore

section Witness

/-- The writer of a new chain. -/
def newWriter : Writer :=
  ⟨{ Directory.empty with lock := .held }, ⟨0, 4096, 0, false, true⟩⟩

lemma newWriter_opened [Schema OpId] [Checksum] :
    openInner false 4096 {} Directory.empty = (.ok newWriter.store, newWriter.directory) := rfl

lemma newWriter_good [Schema OpId] [Checksum] : ∃ shapes, Good newWriter shapes := by
  obtain ⟨shapes, hshapes⟩ := (sound_empty : Sound OpId empty).shaped
  rcases openInner_good hshapes (fun hheld => WriterLock.noConfusion hheld) newWriter_opened with
    ⟨store, hstore, hgood, -⟩ | ⟨error, herror, -⟩
  · cases hstore
    exact ⟨shapes, hgood⟩
  · cases herror

/-- Nothing has to be stable. -/
lemma newWriter_within (n : ℕ) : 0 ≤ (newWriter.directory.bytesAt n).length := Nat.zero_le _

local instance lossSchema : Schema OpId := messageSchema
local instance lossChecksum : Checksum := crc32cChecksum

/-- One attempt to append a message. -/
def attempt (message : Bytes) (store : LogStore Mounted) :
    Except IoError (List Admission) × LogStore Mounted :=
  (LogStore.appendEncodedBatch Mounted.log [message]).exec store

/-- The bytes of the records of a directory. -/
def recorded (d : Directory) : Option (List Bytes) :=
  (visitRecords d).toOption.map fun visited => visited.1.map Record.data

end Witness
end EditChain.Store.Site
