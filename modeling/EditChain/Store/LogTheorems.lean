import EditChain.Core.AdmissionTheorems
import EditChain.Store.Log

/-!
# Admission over a failing log

`Lawful` is the documented contract of an adapter: records keep their order and bytes, a failed
append leaves a prefix, a successful append or sync is durable. Over any such adapter, whatever
fails, the evidence cached by a `LogStore` is the evidence in the log, outcomes are those of the
in-memory set, nothing is stored twice, and an acknowledged record is durable.
-/

namespace EditChain.Store

open Core Fallible

variable {Op : Type} [Schema Op]

/-! ## Replayed evidence -/

/-- The operation identity that some bytes decode to. -/
def Decodes (id : OpId) (bytes : Bytes) : Prop :=
  ∃ op, Schema.decodeOp bytes = .ok op ∧ Schema.id op = id

lemma Decodes.eq {id j : OpId} {bytes : Bytes} (h : Decodes id bytes) (k : Decodes j bytes) :
    id = j := by
  obtain ⟨op, hop, rfl⟩ := h
  obtain ⟨op', hop', rfl⟩ := k
  rw [hop] at hop'
  cases hop'
  rfl

lemma replay_append_singleton (records : List Record) (record : Record) :
    replay (records ++ [record]) = replayRecord (replay records) record := by
  simp [replay, List.foldl_append]

lemma replayRecord_of_decodes {e : OpSet} {id : OpId} {record : Record}
    (h : Decodes id record.data) : replayRecord e record = (e.insert id record.data).2 := by
  obtain ⟨op, hop, rfl⟩ := h
  simp [replayRecord, hop]

lemma replayRecord_of_error {e : OpSet} {record : Record} {error : PostcardError}
    (h : Schema.decodeOp record.data = .error error) : replayRecord e record = e := by
  simp [replayRecord, h]

/-- The replayed evidence is the set of decodable records. -/
lemma mem_pairs_replay {records : List Record} {id : OpId} {bytes : Bytes} :
    (id, bytes) ∈ (replay records).pairs
      ↔ Decodes id bytes ∧ ∃ record ∈ records, record.data = bytes := by
  induction records using List.reverseRecOn with
  | nil => simp [replay]
  | append_singleton records record ih =>
    rw [replay_append_singleton]
    cases hdec : Schema.decodeOp record.data with
    | error e =>
      rw [replayRecord_of_error hdec, ih]
      simp only [List.mem_append, List.mem_singleton, and_congr_right_iff]
      intro hid
      refine ⟨fun ⟨r, hr, hb⟩ => ⟨r, .inl hr, hb⟩, ?_⟩
      rintro ⟨r, hr | rfl, hb⟩
      · exact ⟨r, hr, hb⟩
      · obtain ⟨op, hop, -⟩ := hid
        rw [← hb, hdec] at hop
        cases hop
    | ok op =>
      rw [replayRecord_of_decodes ⟨op, hdec, rfl⟩, OpSet.insert_eq]
      simp only [OpSet.pairs_retain, Finset.mem_insert, Prod.mk.injEq, ih, List.mem_append,
        List.mem_singleton]
      constructor
      · rintro (⟨rfl, rfl⟩ | ⟨hid, r, hr, hb⟩)
        · exact ⟨⟨op, hdec, rfl⟩, record, .inr rfl, rfl⟩
        · exact ⟨hid, r, .inl hr, hb⟩
      · rintro ⟨hid, r, hr | rfl, hb⟩
        · exact .inr ⟨hid, r, hr, hb⟩
        · have hown : Decodes (Schema.id op) r.data := ⟨op, hdec, rfl⟩
          rw [hb] at hown
          exact .inl ⟨hid.eq hown, hb.symm⟩

/-! ## What a batch appends -/

/-- The records of a batch that are not yet retained. -/
def pendingOf (e : OpSet) : List (OpId × Bytes) → List Record
  | [] => []
  | (id, bytes) :: rest =>
    if e.classify id bytes ≠ .duplicate then ⟨0, bytes⟩ :: pendingOf (e.retain id bytes) rest
    else pendingOf (e.retain id bytes) rest

namespace LogStore

omit [Schema Op] in
/-- A batch computes the outcomes of `insertAll` and collects what is new. -/
lemma admitAll_eq (batch : Batch) (records : List (OpId × Bytes)) :
    batch.admitAll records
      = { evidence := (batch.evidence.insertAll records).2
          admissions := batch.admissions ++ (batch.evidence.insertAll records).1
          pending := batch.pending ++ pendingOf batch.evidence records
          fence := batch.fence || (batch.evidence.insertAll records).1.any (· ≠ .accepted) } := by
  induction records generalizing batch with
  | nil => simp [Batch.admitAll, pendingOf]
  | cons record records ih =>
    obtain ⟨id, bytes⟩ := record
    have hstep : batch.admitAll ((id, bytes) :: records) = (batch.admitOne id bytes).admitAll records :=
      rfl
    rw [hstep, ih]
    simp only [Batch.admitOne, OpSet.insert_eq, OpSet.insertAll_cons, pendingOf, List.append_assoc,
      List.singleton_append, List.any_cons, Bool.or_assoc]
    split <;> simp

end LogStore

omit [Schema Op] in
/-- A record that is already retained changes nothing. -/
lemma retain_of_mem {e : OpSet} {id : OpId} {bytes : Bytes} (h : (id, bytes) ∈ e.pairs) :
    e.retain id bytes = e := by
  apply OpSet.ext_pairs
  rw [OpSet.pairs_retain, Finset.insert_eq_of_mem h]

/-- Replaying what a batch appends gives the evidence the batch computed. -/
lemma replay_append_pendingOf (log : List Record) {records : List (OpId × Bytes)}
    (hdec : ∀ r ∈ records, Decodes r.1 r.2) :
    replay (log ++ pendingOf (replay log) records) = ((replay log).insertAll records).2 := by
  induction records generalizing log with
  | nil => simp [pendingOf]
  | cons record records ih =>
    obtain ⟨id, bytes⟩ := record
    have hid : Decodes id bytes := hdec (id, bytes) (by simp)
    have hrest : ∀ r ∈ records, Decodes r.1 r.2 := fun r hr => hdec r (by simp [hr])
    rw [pendingOf, OpSet.insertAll_cons]
    by_cases hdup : (replay log).classify id bytes = .duplicate
    · rw [if_neg (by simp [hdup]),
        retain_of_mem (OpSet.classify_eq_duplicate_iff.mp hdup), ih log hrest]
    · have hnew : replay (log ++ [⟨0, bytes⟩]) = (replay log).retain id bytes := by
        rw [replay_append_singleton, replayRecord_of_decodes (show Decodes id (Record.mk 0 bytes).data from hid),
          OpSet.insert_eq]
      rw [if_pos hdup, ← hnew, ← ih _ hrest, List.append_assoc,
        List.singleton_append]

/-- What a batch appends is decodable, new to the log, and without repetitions. -/
lemma pendingOf_fresh (e : OpSet) {records : List (OpId × Bytes)}
    (hdec : ∀ r ∈ records, Decodes r.1 r.2) :
    (∀ p ∈ pendingOf e records, p.flags = 0 ∧ ∃ id, Decodes id p.data ∧ (id, p.data) ∉ e.pairs)
      ∧ ((pendingOf e records).map Record.data).Nodup := by
  induction records generalizing e with
  | nil => simp [pendingOf]
  | cons record records ih =>
    obtain ⟨id, bytes⟩ := record
    have hid : Decodes id bytes := hdec (id, bytes) (by simp)
    obtain ⟨hfresh, hnodup⟩ := ih (e.retain id bytes) fun r hr => hdec r (by simp [hr])
    have hold : ∀ p ∈ pendingOf (e.retain id bytes) records,
        p.flags = 0 ∧ ∃ j, Decodes j p.data ∧ (j, p.data) ∉ e.pairs := by
      intro p hp
      obtain ⟨hflags, j, hj, hnot⟩ := hfresh p hp
      rw [OpSet.pairs_retain, Finset.mem_insert, not_or] at hnot
      exact ⟨hflags, j, hj, hnot.2⟩
    rw [pendingOf]
    by_cases hdup : e.classify id bytes = .duplicate
    · rw [if_neg (by simp [hdup])]
      exact ⟨hold, hnodup⟩
    · rw [if_pos hdup]
      refine ⟨?_, ?_⟩
      · intro p hp
        rcases List.mem_cons.mp hp with rfl | hp
        · exact ⟨rfl, id, hid, fun hmem => hdup (OpSet.classify_eq_duplicate_iff.mpr hmem)⟩
        · exact hold p hp
      · rw [List.map_cons, List.nodup_cons]
        refine ⟨?_, hnodup⟩
        intro hmem
        obtain ⟨p, hp, heq⟩ := List.mem_map.mp hmem
        obtain ⟨-, j, hj, hnot⟩ := hfresh p hp
        rw [heq] at hj hnot
        rw [hj.eq hid, OpSet.pairs_retain] at hnot
        exact hnot (Finset.mem_insert_self _ _)

omit [Schema Op] in
/-- A record of a batch is already retained or appended; without a fence all are appended. -/
lemma mem_pendingOf {e : OpSet} {records : List (OpId × Bytes)} {id : OpId} {bytes : Bytes}
    (h : (id, bytes) ∈ records) :
    ⟨0, bytes⟩ ∈ pendingOf e records
      ∨ (id, bytes) ∈ e.pairs ∧ (e.insertAll records).1.any (· ≠ .accepted) = true := by
  induction records generalizing e with
  | nil => simp at h
  | cons record records ih =>
    obtain ⟨j, b⟩ := record
    rw [pendingOf, OpSet.insertAll_cons, List.any_cons]
    by_cases hdup : e.classify j b = .duplicate
    · have hmem := OpSet.classify_eq_duplicate_iff.mp hdup
      rw [if_neg (by simp [hdup]), retain_of_mem hmem]
      rcases List.mem_cons.mp h with heq | hrest
      · cases heq
        exact .inr ⟨hmem, by simp [hdup]⟩
      · rcases ih hrest (e := e) with hp | ⟨hp, -⟩
        · exact .inl hp
        · exact .inr ⟨hp, by simp [hdup]⟩
    · rw [if_pos hdup]
      rcases List.mem_cons.mp h with heq | hrest
      · cases heq
        exact .inl (by simp)
      · rcases ih hrest (e := e.retain j b) with hp | ⟨hp, hany⟩
        · exact .inl (List.mem_cons_of_mem _ hp)
        · rw [OpSet.pairs_retain, Finset.mem_insert] at hp
          rcases hp with heq | hp
          · cases heq
            exact .inl (by simp)
          · exact .inr ⟨hp, by rw [hany, Bool.or_true]⟩

/-! ## The contract of an adapter -/

/-- A record in the log, durable or only readable. -/
structure Entry where
  record : Record
  durable : Bool
deriving DecidableEq, Repr

/-- The same records, those that were durable still durable. -/
def Settles (before after : List Entry) : Prop :=
  List.Forall₂ (fun a b => a.record = b.record ∧ (a.durable → b.durable)) before after

omit [Schema Op] in
lemma Settles.records {v w : List Entry} (h : Settles v w) :
    w.map Entry.record = v.map Entry.record := by
  induction h with
  | nil => rfl
  | cons hab _ ih => rw [List.map_cons, List.map_cons, ih, hab.1]

omit [Schema Op] in
/-- Durable records stay durable. -/
lemma Settles.durable {v w : List Entry} (h : Settles v w) {a : Entry} (ha : a ∈ v)
    (hd : a.durable) : ∃ b ∈ w, b.record = a.record ∧ b.durable := by
  induction h with
  | nil => cases ha
  | cons hab _ ih =>
    rcases List.mem_cons.mp ha with rfl | hmem
    · exact ⟨_, List.mem_cons_self, hab.1.symm, hab.2 hd⟩
    · obtain ⟨c, hc, hrest⟩ := ih hmem
      exact ⟨c, List.mem_cons_of_mem _ hc, hrest⟩

/-- The documented contract of an append-log adapter. -/
structure Lawful {L : Type} (log : AppendLog L) where
  /-- The complete records in the log. -/
  entries : L → List Entry
  visit : ∀ {s t r}, log.visitRecords.exec s = (r, t) →
    Settles (entries s) (entries t)
      ∧ ∀ records stats, r = .ok (records, stats) → records = (entries s).map Entry.record
  /-- A successful sync makes every readable record durable. -/
  sync : ∀ {s t r}, log.sync.exec s = (r, t) →
    Settles (entries s) (entries t) ∧ (r = .ok () → ∀ e ∈ entries t, e.durable)
  /-- An append leaves a prefix of the records; a successful one all of them, durable. -/
  append : ∀ {records s t r}, (log.appendRecords records).exec s = (r, t) →
    ∃ old added, entries t = old ++ added ∧ Settles (entries s) old
      ∧ added.map Entry.record <+: records
      ∧ (r = .ok () → added.map Entry.record = records ∧ ∀ e ∈ added, e.durable)

namespace Lawful

variable {L : Type} {log : AppendLog L} (law : Lawful log)

/-- The records in the log. -/
def contents (s : L) : List Record := (law.entries s).map Entry.record

/-- The bytes are durable in the log. -/
def Durable (s : L) (bytes : Bytes) : Prop :=
  ∃ e ∈ law.entries s, e.record.data = bytes ∧ e.durable

omit [Schema Op] in
lemma contents_visit {s t : L} {r} (h : log.visitRecords.exec s = (r, t)) :
    law.contents t = law.contents s :=
  (law.visit h).1.records

omit [Schema Op] in
lemma contents_sync {s t : L} {r} (h : log.sync.exec s = (r, t)) :
    law.contents t = law.contents s :=
  (law.sync h).1.records

omit [Schema Op] in
lemma contents_append {s t : L} {records r} (h : (log.appendRecords records).exec s = (r, t)) :
    ∃ kept, kept <+: records ∧ law.contents t = law.contents s ++ kept
      ∧ (r = .ok () → kept = records ∧ ∀ record ∈ records, law.Durable t record.data) := by
  obtain ⟨old, added, hentries, hold, hkept, hok⟩ := law.append h
  refine ⟨added.map Entry.record, hkept, ?_, ?_⟩
  · unfold contents
    rw [hentries, List.map_append, hold.records]
  · intro hr
    obtain ⟨hall, hdurable⟩ := hok hr
    refine ⟨hall, ?_⟩
    intro record hrecord
    rw [← hall] at hrecord
    obtain ⟨e, he, rfl⟩ := List.mem_map.mp hrecord
    exact ⟨e, by simp [hentries, he], rfl, hdurable e he⟩

omit [Schema Op] in
lemma durable_settles {s t : L} (h : Settles (law.entries s) (law.entries t)) {bytes : Bytes}
    (hd : law.Durable s bytes) : law.Durable t bytes := by
  obtain ⟨e, he, rfl, hdurable⟩ := hd
  obtain ⟨e', he', heq, hdurable'⟩ := h.durable he hdurable
  exact ⟨e', he', by rw [heq], hdurable'⟩

omit [Schema Op] in
lemma durable_visit {s t : L} {r} (h : log.visitRecords.exec s = (r, t)) {bytes : Bytes}
    (hd : law.Durable s bytes) : law.Durable t bytes :=
  law.durable_settles (law.visit h).1 hd

omit [Schema Op] in
lemma durable_sync {s t : L} {r} (h : log.sync.exec s = (r, t)) {bytes : Bytes}
    (hd : law.Durable s bytes) : law.Durable t bytes :=
  law.durable_settles (law.sync h).1 hd

omit [Schema Op] in
lemma durable_append {s t : L} {records r} (h : (log.appendRecords records).exec s = (r, t))
    {bytes : Bytes} (hd : law.Durable s bytes) : law.Durable t bytes := by
  obtain ⟨old, added, hentries, hold, -, -⟩ := law.append h
  obtain ⟨e, he, rfl, hdurable⟩ := hd
  obtain ⟨e', he', heq, hdurable'⟩ := hold.durable he hdurable
  exact ⟨e', by simp [hentries, he'], by rw [heq], hdurable'⟩

end Lawful

/-! ## One batch -/

namespace LogStore

variable {L : Type} {log : AppendLog L} (law : Lawful log)

/-- Cached evidence is the evidence in the log. -/
def Coherent (s : LogStore L) : Prop :=
  ∀ e, s.evidence = some e → e = replay (law.contents s.log)

omit [Schema Op] in
lemma exec_onLog {α : Type} (m : Fallible IoError L α) (s : LogStore L) :
    (onLog m).exec s = ((m.exec s.log).1, { s with log := (m.exec s.log).2 }) := rfl

/-- The evidence a batch starts from is the evidence in the log. -/
lemma exec_takeEvidence {s t : LogStore L} (hs : Coherent law s) {r : Except IoError OpSet}
    (h : (takeEvidence log).exec s = (r, t)) :
    t.evidence = none ∧ law.contents t.log = law.contents s.log
      ∧ ∀ e, r = .ok e → e = replay (law.contents s.log) := by
  unfold takeEvidence at h
  rw [exec_bind_of_ok (exec_get s), exec_bind_of_ok (exec_set _ s)] at h
  cases hcached : s.evidence with
  | some evidence =>
    rw [hcached] at h
    simp only [exec_pure, Prod.mk.injEq] at h
    obtain ⟨rfl, rfl⟩ := h
    refine ⟨rfl, rfl, ?_⟩
    intro e he
    cases he
    exact hs _ hcached
  | none =>
    rw [hcached] at h
    simp only [exec_onLog, readEvidence, exec_bind] at h
    cases hvisit : log.visitRecords.exec s.log with
    | mk result after =>
      rw [hvisit] at h
      have hsame := law.contents_visit hvisit
      cases result with
      | error e =>
        simp only [Prod.mk.injEq] at h
        obtain ⟨rfl, rfl⟩ := h
        exact ⟨rfl, hsame, fun e he => by cases he⟩
      | ok visited =>
        simp only [exec_pure, Prod.mk.injEq] at h
        obtain ⟨rfl, rfl⟩ := h
        refine ⟨rfl, hsame, ?_⟩
        intro e he
        cases he
        have hrecords := (law.visit hvisit).2 visited.1 visited.2 rfl
        rw [hrecords]
        rfl

omit [Schema Op] in
/-- The second half of a commit: the pending records are appended, in part or as a whole. -/
lemma exec_append_commit {batch : Batch} {s t : LogStore L} {r : Except IoError (List Admission)}
    (h : (onLog (log.appendRecords batch.pending) >>= fun _ => (do
      modify fun s => { s with evidence := some batch.evidence }
      return batch.admissions : Fallible IoError (LogStore L) (List Admission))).exec s = (r, t)) :
    (∃ error kept, r = .error error ∧ t.evidence = s.evidence ∧ kept <+: batch.pending
        ∧ law.contents t.log = law.contents s.log ++ kept)
      ∨ (r = .ok batch.admissions ∧ t.evidence = some batch.evidence
        ∧ law.contents t.log = law.contents s.log ++ batch.pending
        ∧ (∀ record ∈ batch.pending, law.Durable t.log record.data)
        ∧ ∀ bytes, law.Durable s.log bytes → law.Durable t.log bytes) := by
  rw [exec_bind, exec_onLog] at h
  cases happend : (log.appendRecords batch.pending).exec s.log with
  | mk result after =>
    rw [happend] at h
    obtain ⟨kept, hkept, hlog, hok⟩ := law.contents_append happend
    cases result with
    | error error =>
      cases h
      exact .inl ⟨error, kept, rfl, rfl, hkept, hlog⟩
    | ok _ =>
      cases h
      obtain ⟨rfl, hdurable⟩ := hok rfl
      exact .inr ⟨rfl, rfl, hlog, hdurable, fun _ => law.durable_append happend⟩

omit [Schema Op] in
/-- A commit appends the pending records, in part or as a whole; with a fence, everything that was
readable is durable afterwards. -/
lemma exec_commit {batch : Batch} {s t : LogStore L} {r : Except IoError (List Admission)}
    (h : (commit log batch).exec s = (r, t)) :
    (∃ error kept, r = .error error ∧ t.evidence = s.evidence ∧ kept <+: batch.pending
        ∧ law.contents t.log = law.contents s.log ++ kept)
      ∨ (r = .ok batch.admissions ∧ t.evidence = some batch.evidence
        ∧ law.contents t.log = law.contents s.log ++ batch.pending
        ∧ (∀ record ∈ batch.pending, law.Durable t.log record.data)
        ∧ (batch.fence = true →
            ∀ record ∈ law.contents s.log, law.Durable t.log record.data)) := by
  unfold commit at h
  by_cases hfence : batch.fence = true
  · rw [if_pos hfence, exec_bind, exec_onLog] at h
    cases hsync : log.sync.exec s.log with
    | mk result after =>
      rw [hsync] at h
      have hsame := law.contents_sync hsync
      cases result with
      | error error =>
        cases h
        exact .inl ⟨error, [], rfl, rfl, List.nil_prefix, by rw [List.append_nil, hsame]⟩
      | ok _ =>
        have hdurable := (law.sync hsync).2 rfl
        rcases exec_append_commit law h with ⟨error, kept, hr, hcache, hkept, hlog⟩ |
          ⟨hr, hcache, hlog, hpending, hkeep⟩
        · exact .inl ⟨error, kept, hr, hcache, hkept, hlog.trans (by rw [hsame])⟩
        · refine .inr ⟨hr, hcache, hlog.trans (by rw [hsame]), hpending, ?_⟩
          intro _ record hrecord
          rw [← hsame] at hrecord
          obtain ⟨e, he, rfl⟩ := List.mem_map.mp hrecord
          exact hkeep _ ⟨e, he, rfl, hdurable e he⟩
  · rw [if_neg hfence] at h
    rcases exec_append_commit law h with hfail | ⟨hr, hcache, hlog, hpending, -⟩
    · exact .inl hfail
    · exact .inr ⟨hr, hcache, hlog, hpending, fun hf => absurd hf hfence⟩

lemma validateRecord_eq_ok {bytes : Bytes} {id : OpId} :
    validateRecord bytes = .ok id ↔ bytes.length ≤ maxRecordBytes ∧ Decodes id bytes := by
  unfold validateRecord Decodes
  by_cases hlarge : maxRecordBytes < bytes.length
  · simp only [hlarge, if_true, reduceCtorEq, false_iff, not_and]
    intro hle
    omega
  · have hle : bytes.length ≤ maxRecordBytes := by omega
    rw [if_neg hlarge]
    cases Schema.decodeOp bytes <;> simp [hle]

/-- Validation of a batch gives every record the identity it decodes to. -/
lemma mapM_validateRecord {records : List Bytes} {ids : List OpId}
    (h : records.mapM validateRecord = .ok ids) :
    (∀ r ∈ ids.zip records, Decodes r.1 r.2) ∧ ∀ b ∈ records, ∃ id, (id, b) ∈ ids.zip records := by
  induction records generalizing ids with
  | nil => simp
  | cons bytes records ih =>
    rw [List.mapM_cons] at h
    obtain ⟨id, hid, h⟩ := bind_eq_ok.mp h
    obtain ⟨rest, hrest, h⟩ := bind_eq_ok.mp h
    obtain rfl := pure_eq_ok.mp h
    obtain ⟨hdec, hmem⟩ := ih hrest
    have hown := (validateRecord_eq_ok.mp hid).2
    refine ⟨?_, ?_⟩
    · intro r hr
      rcases List.mem_cons.mp hr with rfl | hr
      · exact hown
      · exact hdec r hr
    · intro b hb
      rcases List.mem_cons.mp hb with rfl | hb
      · exact ⟨id, List.mem_cons_self⟩
      · obtain ⟨j, hj⟩ := hmem b hb
        exact ⟨j, List.mem_cons_of_mem _ hj⟩

/-- A batch is rejected as soon as one of its records is. -/
lemma mapM_validateRecord_error {records : List Bytes} {bytes : Bytes} {error : IoError}
    (hmem : bytes ∈ records) (h : validateRecord bytes = .error error) :
    ∃ e, records.mapM validateRecord = .error e := by
  cases hall : records.mapM validateRecord with
  | error e => exact ⟨e, rfl⟩
  | ok ids =>
    exfalso
    induction records generalizing ids with
    | nil => cases hmem
    | cons b records ih =>
      rw [List.mapM_cons] at hall
      obtain ⟨id, hid, hall⟩ := bind_eq_ok.mp hall
      obtain ⟨rest, hrest, -⟩ := bind_eq_ok.mp hall
      rcases List.mem_cons.mp hmem with rfl | hmem
      · rw [h] at hid
        cases hid
      · exact ih hmem rest hrest

/-- What one batch can do to a store. -/
inductive Outcome (records : List Bytes) (s : LogStore L) :
    Except IoError (List Admission) → LogStore L → Prop where
  /-- Validation failed and nothing was touched. -/
  | rejected (error : IoError) (h : records.mapM validateRecord = .error error) :
    Outcome records s (.error error) s
  /-- A log operation failed after part of the pending records was kept. -/
  | failed (error : IoError) (t : LogStore L) (ids : List OpId) (kept : List Record)
      (h : records.mapM validateRecord = .ok ids) (cache : t.evidence = none)
      (hkept : kept <+: pendingOf (replay (law.contents s.log)) (ids.zip records))
      (log : law.contents t.log = law.contents s.log ++ kept) :
    Outcome records s (.error error) t
  /-- Everything is in the log. -/
  | done (t : LogStore L) (ids : List OpId) (h : records.mapM validateRecord = .ok ids)
      (cache : t = s
        ∨ t.evidence = some ((replay (law.contents s.log)).insertAll (ids.zip records)).2)
      (log : law.contents t.log
        = law.contents s.log ++ pendingOf (replay (law.contents s.log)) (ids.zip records))
      (durable : ∀ b ∈ records, law.Durable t.log b) :
    Outcome records s (.ok ((replay (law.contents s.log)).insertAll (ids.zip records)).1) t

/-- From a coherent store, a batch has one of the three outcomes. -/
theorem appendEncodedBatch_outcome {records : List Bytes} {s t : LogStore L} (hs : Coherent law s)
    {r : Except IoError (List Admission)} (h : (appendEncodedBatch log records).exec s = (r, t)) :
    Outcome law records s r t := by
  unfold appendEncodedBatch at h
  cases hvalid : records.mapM validateRecord with
  | error error =>
    rw [hvalid, exec_bind_of_error (exec_lift _ s)] at h
    cases h
    exact .rejected error hvalid
  | ok ids =>
    rw [hvalid, exec_bind_of_ok (exec_lift _ s)] at h
    by_cases hnil : records = []
    · subst hnil
      simp only [if_true, exec_pure, Prod.mk.injEq] at h
      obtain ⟨rfl, rfl⟩ := h
      have hids : ids = [] := by
        simp only [List.mapM_nil, pure, Except.pure, Except.ok.injEq] at hvalid
        exact hvalid.symm
      subst hids
      exact .done s [] hvalid (.inl rfl) (by simp [pendingOf]) (by simp)
    · rw [if_neg hnil, exec_bind] at h
      cases htake : (takeEvidence log).exec s with
      | mk taken s₁ =>
        obtain ⟨hcache, hsame, hevidence⟩ := exec_takeEvidence law hs htake
        rw [htake] at h
        cases taken with
        | error error =>
          cases h
          exact .failed error t ids [] hvalid hcache List.nil_prefix
            (by rw [List.append_nil, hsame])
        | ok evidence =>
          obtain rfl := hevidence evidence rfl
          obtain ⟨-, hmem⟩ := mapM_validateRecord hvalid
          simp only [admitAll_eq, List.nil_append, Bool.false_or] at h
          rcases exec_commit law h with ⟨error, kept, rfl, hnone, hkept, hlog⟩ |
            ⟨rfl, hsome, hlog, hpending, hfence⟩
          · exact .failed error t ids kept hvalid (hnone.trans hcache) hkept (by rw [hlog, hsame])
          · refine .done t ids hvalid (.inr hsome) (by rw [hlog, hsame]) ?_
            intro b hb
            obtain ⟨id, hid⟩ := hmem b hb
            -- a record that is not appended is a duplicate, and duplicates raise the fence
            rcases @mem_pendingOf (replay (law.contents s.log)) _ id b hid with hp | ⟨hold, hany⟩
            · exact hpending ⟨0, b⟩ hp
            · obtain ⟨-, record, hrecord, rfl⟩ := mem_pairs_replay.mp hold
              exact hfence hany record (by rw [hsame]; exact hrecord)

/-! ## Runs -/

/-- A use of the store: a batch, or a new `LogStore` over the same adapter. -/
inductive Call where
  | appendEncodedBatch (records : List Bytes)
  | reopen

/-- The store after a call, whatever the call returned. -/
def step (log : AppendLog L) (s : LogStore L) : Call → LogStore L
  | .appendEncodedBatch records => ((appendEncodedBatch log records).exec s).2
  | .reopen => new s.intoInner

/-- The store after a sequence of calls. -/
def run (log : AppendLog L) (s : LogStore L) (calls : List Call) : LogStore L :=
  calls.foldl (step log) s

/-- A batch leaves the store coherent and appends only new decodable records. -/
lemma coherent_of_outcome {records : List Bytes} {s t : LogStore L} (hs : Coherent law s)
    {r : Except IoError (List Admission)} (h : Outcome law records s r t) :
    Coherent law t ∧ ∃ added, law.contents t.log = law.contents s.log ++ added
      ∧ (∀ p ∈ added, ∃ id, Decodes id p.data
          ∧ ∀ q ∈ law.contents s.log, q.data ≠ p.data)
      ∧ (added.map Record.data).Nodup := by
  have hfresh : ∀ {ids : List OpId}, records.mapM validateRecord = .ok ids →
      ∀ {kept : List Record}, kept <+: pendingOf (replay (law.contents s.log)) (ids.zip records) →
      (∀ p ∈ kept, ∃ id, Decodes id p.data ∧ ∀ q ∈ law.contents s.log, q.data ≠ p.data)
        ∧ (kept.map Record.data).Nodup := by
    intro ids hids kept hkept
    obtain ⟨hnew, hnodup⟩ :=
      pendingOf_fresh (replay (law.contents s.log)) (mapM_validateRecord hids).1
    refine ⟨?_, (hkept.map Record.data).sublist.nodup hnodup⟩
    intro p hp
    obtain ⟨-, id, hid, hnot⟩ := hnew p (hkept.subset hp)
    exact ⟨id, hid, fun q hq heq => hnot (mem_pairs_replay.mpr ⟨hid, q, hq, heq⟩)⟩
  cases h with
  | rejected error hvalid => exact ⟨hs, [], by simp, by simp, by simp⟩
  | failed error t ids kept hvalid hcache hkept hlog =>
    obtain ⟨hnew, hnodup⟩ := hfresh hvalid hkept
    refine ⟨?_, kept, hlog, hnew, hnodup⟩
    intro e he
    rw [hcache] at he
    cases he
  | done t ids hvalid hcache hlog hdurable =>
    obtain ⟨hnew, hnodup⟩ := hfresh hvalid List.prefix_rfl
    refine ⟨?_, _, hlog, hnew, hnodup⟩
    intro e he
    rcases hcache with rfl | hsome
    · exact hs e he
    · rw [hsome] at he
      cases he
      rw [hlog, replay_append_pendingOf _ (mapM_validateRecord hvalid).1]

/-- What a run keeps: coherence, and a log that only grew by new decodable records. -/
structure Reached (start : List Record) (s : LogStore L) : Prop where
  coherent : Coherent law s
  grown : ∃ added, law.contents s.log = start ++ added
    ∧ (∀ p ∈ added, ∃ id, Decodes id p.data)
    ∧ (∀ p ∈ added, ∀ q ∈ start, q.data ≠ p.data)
    ∧ (added.map Record.data).Nodup

lemma reached_new (l : L) : Reached law (law.contents l) (new l) where
  coherent := fun _ he => by cases he
  grown := ⟨[], by simp [new], by simp, by simp, by simp⟩

/-- Every call keeps what a run keeps. -/
lemma Reached.step {start : List Record} {s : LogStore L} (h : Reached law start s) (call : Call) :
    Reached law start (LogStore.step log s call) := by
  cases call with
  | reopen =>
    refine ⟨fun _ he => (by cases he), ?_⟩
    exact h.grown
  | appendEncodedBatch records =>
    obtain ⟨added, hadded, hdec, hdisjoint, hnodup⟩ := h.grown
    obtain ⟨hcoherent, more, hmore, hnew, hmorenodup⟩ :=
      coherent_of_outcome law h.coherent (appendEncodedBatch_outcome law h.coherent rfl)
    refine ⟨hcoherent, added ++ more, ?_, ?_, ?_, ?_⟩
    · rw [← List.append_assoc, ← hadded]
      exact hmore
    · intro p hp
      rcases List.mem_append.mp hp with hp | hp
      · exact hdec p hp
      · obtain ⟨id, hid, -⟩ := hnew p hp
        exact ⟨id, hid⟩
    · intro p hp q hq
      rcases List.mem_append.mp hp with hp | hp
      · exact hdisjoint p hp q hq
      · obtain ⟨-, -, hold⟩ := hnew p hp
        exact hold q (by rw [hadded]; exact List.mem_append_left _ hq)
    · rw [List.map_append]
      refine List.nodup_append.mpr ⟨hnodup, hmorenodup, ?_⟩
      intro b hb c hc heq
      obtain ⟨q, hq, rfl⟩ := List.mem_map.mp hb
      obtain ⟨p, hp, rfl⟩ := List.mem_map.mp hc
      obtain ⟨-, -, hold⟩ := hnew p hp
      exact hold q (by rw [hadded]; exact List.mem_append_right _ hq) heq

/-- Every sequence of calls keeps what a run keeps. -/
lemma Reached.run {start : List Record} {s : LogStore L} (h : Reached law start s)
    (calls : List Call) : Reached law start (LogStore.run log s calls) := by
  induction calls generalizing s with
  | nil => exact h
  | cons call calls ih => exact ih (h.step law call)

/-! ## A batch and its records one at a time -/

/-- A successful single append is a successful batch of one. -/
lemma appendEncoded_eq_ok {encoded : Bytes} {s t : LogStore L} {admission : Admission}
    (h : (appendEncoded log encoded).exec s = (.ok admission, t)) :
    ∃ rest, (appendEncodedBatch log [encoded]).exec s = (.ok (admission :: rest), t) := by
  unfold appendEncoded at h
  obtain ⟨admissions, t₁, hbatch, h⟩ := exec_bind_eq_ok.mp h
  cases admissions with
  | nil => cases h
  | cons a rest =>
    simp only [exec_pure, Prod.mk.injEq, Except.ok.injEq] at h
    obtain ⟨rfl, rfl⟩ := h
    exact ⟨rest, hbatch⟩

/-- Records appended one at a time give the outcomes, and leave the log, of one batch. -/
lemma appendEach_eq_ok {records : List Bytes} {s u : LogStore L} (hs : Coherent law s)
    {admissions : List Admission} (h : (appendEach log records).exec s = (.ok admissions, u)) :
    ∃ ids, records.mapM validateRecord = .ok ids
      ∧ admissions = ((replay (law.contents s.log)).insertAll (ids.zip records)).1
      ∧ law.contents u.log
          = law.contents s.log ++ pendingOf (replay (law.contents s.log)) (ids.zip records) := by
  induction records generalizing s admissions with
  | nil =>
    unfold appendEach at h
    simp only [exec_pure, Prod.mk.injEq, Except.ok.injEq] at h
    obtain ⟨rfl, rfl⟩ := h
    exact ⟨[], rfl, rfl, by simp [pendingOf]⟩
  | cons encoded records ih =>
    unfold appendEach at h
    obtain ⟨admission, s₁, hone, h⟩ := exec_bind_eq_ok.mp h
    obtain ⟨others, u₁, hrest, h⟩ := exec_bind_eq_ok.mp h
    simp only [exec_pure, Prod.mk.injEq, Except.ok.injEq] at h
    obtain ⟨rfl, rfl⟩ := h
    obtain ⟨rest, hbatch⟩ := appendEncoded_eq_ok hone
    have houtcome := appendEncodedBatch_outcome law hs hbatch
    obtain ⟨hcoherent, -⟩ := coherent_of_outcome law hs houtcome
    obtain ⟨ids, hids, rfl, hlog⟩ := ih hcoherent hrest
    generalize hresult : (Except.ok (admission :: rest) : Except IoError _) = result at houtcome
    cases houtcome with
    | rejected => cases hresult
    | failed => cases hresult
    | done t one hvalid hcache hone hdurable =>
      -- the single record's identity
      rw [List.mapM_cons] at hvalid
      obtain ⟨id, hid, hvalid⟩ := bind_eq_ok.mp hvalid
      obtain ⟨noIds, hnil, hvalid⟩ := bind_eq_ok.mp hvalid
      simp only [List.mapM_nil] at hnil
      obtain rfl := pure_eq_ok.mp hnil
      obtain rfl := pure_eq_ok.mp hvalid
      have hdec : ∀ r ∈ [(id, encoded)], Decodes r.1 r.2 := by
        simpa using (validateRecord_eq_ok.mp hid).2
      simp only [List.zip_cons_cons, List.zip_nil_right, OpSet.insertAll_cons, OpSet.insertAll_nil,
        Except.ok.injEq, List.cons.injEq] at hresult hone hcache
      have hnext : replay (law.contents s₁.log)
          = (replay (law.contents s.log)).retain id encoded := by
        rw [hone, replay_append_pendingOf _ hdec, OpSet.insertAll_cons, OpSet.insertAll_nil]
      refine ⟨id :: ids, ?_, ?_, ?_⟩
      · rw [List.mapM_cons, hid, hids]
        rfl
      · rw [List.zip_cons_cons, OpSet.insertAll_cons, hresult.1, hnext]
      · rw [hlog, hnext, hone, List.append_assoc, List.zip_cons_cons]
        simp only [pendingOf]
        split <;> simp

/-- No operation of the adapter fails. -/
structure NeverFails (log : AppendLog L) : Prop where
  visit : ∀ s, ∃ visited t, log.visitRecords.exec s = (.ok visited, t)
  sync : ∀ s, ∃ t, log.sync.exec s = (.ok (), t)
  append : ∀ records s, ∃ t, (log.appendRecords records).exec s = (.ok (), t)

lemma NeverFails.takeEvidence (h : NeverFails log) (s : LogStore L) :
    ∃ e t, (takeEvidence log).exec s = (.ok e, t) := by
  unfold LogStore.takeEvidence
  rw [exec_bind_of_ok (exec_get s), exec_bind_of_ok (exec_set _ s)]
  cases s.evidence with
  | some evidence => exact ⟨evidence, _, rfl⟩
  | none =>
    obtain ⟨visited, t, hvisit⟩ := h.visit s.log
    have hread : (readEvidence log).exec s.log = (.ok (replay visited.1), t) := by
      unfold readEvidence
      rw [exec_bind_of_ok hvisit]
      rfl
    exact ⟨replay visited.1, { log := t, evidence := none }, by simp [exec_onLog, hread]⟩

omit [Schema Op] in
lemma NeverFails.commit (h : NeverFails log) (batch : Batch) (s : LogStore L) :
    ∃ t, (LogStore.commit log batch).exec s = (.ok batch.admissions, t) := by
  have hlast : ∀ s : LogStore L, ∃ t, (onLog (log.appendRecords batch.pending) >>= fun _ => (do
      modify fun s => { s with evidence := some batch.evidence }
      return batch.admissions : Fallible IoError (LogStore L) (List Admission))).exec s
        = (.ok batch.admissions, t) := by
    intro s
    obtain ⟨t, happend⟩ := h.append batch.pending s.log
    rw [exec_bind, exec_onLog, happend]
    exact ⟨_, rfl⟩
  unfold LogStore.commit
  by_cases hfence : batch.fence = true
  · obtain ⟨t, hsync⟩ := h.sync s.log
    rw [if_pos hfence, exec_bind, exec_onLog, hsync]
    exact hlast _
  · rw [if_neg hfence]
    exact hlast s

/-- Without failures a valid batch succeeds. -/
lemma NeverFails.appendEncodedBatch (h : NeverFails log) {records : List Bytes} {ids : List OpId}
    (hvalid : records.mapM validateRecord = .ok ids) (s : LogStore L) :
    ∃ admissions t, (LogStore.appendEncodedBatch log records).exec s = (.ok admissions, t) := by
  unfold LogStore.appendEncodedBatch
  rw [hvalid, exec_bind_of_ok (exec_lift _ s)]
  by_cases hnil : records = []
  · rw [if_pos hnil]
    exact ⟨_, _, rfl⟩
  · obtain ⟨e, t, htake⟩ := h.takeEvidence s
    rw [if_neg hnil, exec_bind_of_ok htake]
    exact ⟨_, h.commit _ t⟩

/-- Without failures valid records are appended one at a time. -/
lemma NeverFails.appendEach (h : NeverFails log) {records : List Bytes} {ids : List OpId}
    (hvalid : records.mapM validateRecord = .ok ids) {s : LogStore L} (hs : Coherent law s) :
    ∃ admissions t, (LogStore.appendEach log records).exec s = (.ok admissions, t) := by
  induction records generalizing s ids with
  | nil => exact ⟨[], s, rfl⟩
  | cons encoded records ih =>
    rw [List.mapM_cons] at hvalid
    obtain ⟨id, hid, hvalid⟩ := bind_eq_ok.mp hvalid
    obtain ⟨others, hothers, -⟩ := bind_eq_ok.mp hvalid
    have hone : [encoded].mapM validateRecord = .ok [id] := by
      rw [List.mapM_cons, hid]
      rfl
    obtain ⟨admissions, s₁, hbatch⟩ := h.appendEncodedBatch hone s
    have houtcome := appendEncodedBatch_outcome law hs hbatch
    obtain ⟨hcoherent, -⟩ := coherent_of_outcome law hs houtcome
    obtain ⟨rest, t, hrest⟩ := ih hothers hcoherent
    have hlength : admissions.length = 1 := by
      generalize hresult : (Except.ok admissions : Except IoError _) = result at houtcome
      cases houtcome with
      | rejected => cases hresult
      | failed => cases hresult
      | done t ids hids =>
        rw [hone] at hids
        cases hids
        cases hresult
        simp
    obtain ⟨admission, rfl⟩ := List.length_eq_one_iff.mp hlength
    refine ⟨admission :: rest, t, ?_⟩
    have hsingle : (appendEncoded log encoded).exec s = (.ok admission, s₁) := by
      unfold appendEncoded
      rw [exec_bind_of_ok hbatch]
      rfl
    unfold LogStore.appendEach
    rw [exec_bind_of_ok hsingle, exec_bind_of_ok hrest]
    rfl

/-! ## Main results -/

/-- The bytes of the decodable records. -/
def decodable (records : List Record) : List Bytes :=
  (records.map Record.data).filter fun bytes => (Schema.decodeOp bytes).isOk

lemma Reached.nodup_decodable {start : List Record} {s : LogStore L} (h : Reached law start s)
    (hstart : (decodable start).Nodup) : (decodable (law.contents s.log)).Nodup := by
  obtain ⟨added, hadded, -, hdisjoint, hnodup⟩ := h.grown
  unfold decodable at hstart ⊢
  rw [hadded, List.map_append, List.filter_append]
  refine List.nodup_append.mpr ⟨hstart, hnodup.filter _, ?_⟩
  intro b hb c hc heq
  obtain ⟨q, hq, rfl⟩ := List.mem_map.mp (List.mem_filter.mp hb).1
  obtain ⟨p, hp, rfl⟩ := List.mem_map.mp (List.mem_filter.mp hc).1
  exact hdisjoint p hp q hq heq

lemma Reached.nodup_data {start : List Record} {s : LogStore L} (h : Reached law start s)
    (hstart : (start.map Record.data).Nodup) : ((law.contents s.log).map Record.data).Nodup := by
  obtain ⟨added, hadded, -, hdisjoint, hnodup⟩ := h.grown
  rw [hadded, List.map_append]
  refine List.nodup_append.mpr ⟨hstart, hnodup, ?_⟩
  intro b hb c hc heq
  obtain ⟨q, hq, rfl⟩ := List.mem_map.mp hb
  obtain ⟨p, hp, rfl⟩ := List.mem_map.mp hc
  exact hdisjoint p hp q hq heq

/-- A successful batch answers what the in-memory set answers. -/
lemma appendEncodedBatch_eq_ok {records : List Bytes} {s t : LogStore L} (hs : Coherent law s)
    {admissions : List Admission}
    (h : (appendEncodedBatch log records).exec s = (.ok admissions, t)) :
    ∃ ids, records.mapM validateRecord = .ok ids
      ∧ admissions = ((replay (law.contents s.log)).insertAll (ids.zip records)).1
      ∧ law.contents t.log
          = law.contents s.log ++ pendingOf (replay (law.contents s.log)) (ids.zip records)
      ∧ ∀ b ∈ records, law.Durable t.log b := by
  have houtcome := appendEncodedBatch_outcome law hs h
  generalize hresult : (Except.ok admissions : Except IoError _) = result at houtcome
  cases houtcome with
  | rejected => cases hresult
  | failed => cases hresult
  | done t ids hids hcache hlog hdurable =>
    cases hresult
    exact ⟨ids, hids, rfl, hlog, hdurable⟩

/-- Whatever fails along the way, a store over a lawful log is its in-memory reference: cached
evidence is the evidence in the log, successful batches answer what the in-memory set answers, a
batch is its records one at a time, a rejected batch touches nothing, and nothing is stored
twice. -/
theorem log_store_refines_op_set (l : L) (calls : List Call) :
    let s := run log (new l) calls
    (∀ e, s.evidence = some e → e = replay (law.contents s.log))
      ∧ (∀ records admissions t,
          (appendEncodedBatch log records).exec s = (.ok admissions, t) →
          ∃ ids, records.mapM validateRecord = .ok ids
            ∧ admissions = ((replay (law.contents s.log)).insertAll (ids.zip records)).1)
      ∧ (∀ records admissions singles t u,
          (appendEncodedBatch log records).exec s = (.ok admissions, t) →
          (appendEach log records).exec s = (.ok singles, u) →
          singles = admissions ∧ law.contents u.log = law.contents t.log)
      ∧ (∀ records ids, NeverFails log → records.mapM validateRecord = .ok ids →
          ∃ admissions t u, (appendEncodedBatch log records).exec s = (.ok admissions, t)
            ∧ (appendEach log records).exec s = (.ok admissions, u)
            ∧ law.contents u.log = law.contents t.log)
      ∧ (∀ records, (∃ b ∈ records, maxRecordBytes < b.length
            ∨ ∃ error, Schema.decodeOp b = .error error) →
          ∃ error, (appendEncodedBatch log records).exec s = (.error error, s))
      ∧ ((decodable (law.contents l)).Nodup → (decodable (law.contents s.log)).Nodup)
      ∧ (((law.contents l).map Record.data).Nodup →
          ((law.contents s.log).map Record.data).Nodup) := by
  intro s
  have hreached : Reached law (law.contents l) s := (reached_new law l).run law calls
  have hcoherent := hreached.coherent
  have hsame : ∀ {records : List Bytes} {admissions singles : List Admission} {t u : LogStore L},
      (appendEncodedBatch log records).exec s = (.ok admissions, t) →
      (appendEach log records).exec s = (.ok singles, u) →
      singles = admissions ∧ law.contents u.log = law.contents t.log := by
    intro records admissions singles t u hbatch heach
    obtain ⟨ids, hids, rfl, hlog, -⟩ := appendEncodedBatch_eq_ok law hcoherent hbatch
    obtain ⟨ids', hids', rfl, hlog'⟩ := appendEach_eq_ok law hcoherent heach
    rw [hids] at hids'
    cases hids'
    exact ⟨rfl, by rw [hlog, hlog']⟩
  refine ⟨hcoherent, ?_, ?_, ?_, ?_, hreached.nodup_decodable law, hreached.nodup_data law⟩
  · intro records admissions t hbatch
    obtain ⟨ids, hids, hadmissions, -, -⟩ := appendEncodedBatch_eq_ok law hcoherent hbatch
    exact ⟨ids, hids, hadmissions⟩
  · intro records admissions singles t u hbatch heach
    exact hsame hbatch heach
  · intro records ids hnever hvalid
    obtain ⟨admissions, t, hbatch⟩ := hnever.appendEncodedBatch hvalid s
    obtain ⟨singles, u, heach⟩ := hnever.appendEach law hvalid hcoherent
    obtain ⟨rfl, hlog⟩ := hsame hbatch heach
    exact ⟨singles, t, u, hbatch, heach, hlog⟩
  · rintro records ⟨b, hb, hbad⟩
    have hinvalid : ∃ error, validateRecord b = .error error := by
      cases hvalid : validateRecord b with
      | error error => exact ⟨error, rfl⟩
      | ok id =>
        obtain ⟨hle, op, hop, -⟩ := validateRecord_eq_ok.mp hvalid
        rcases hbad with hlarge | ⟨error, herror⟩
        · omega
        · rw [hop] at herror
          cases herror
    obtain ⟨error, herror⟩ := hinvalid
    obtain ⟨e, he⟩ := mapM_validateRecord_error hb herror
    refine ⟨e, ?_⟩
    unfold appendEncodedBatch
    rw [he, exec_bind_of_error (exec_lift _ s)]

/-- An acknowledgement means durability: whatever failed before, and however often the store was
created anew, when a batch succeeds all its records are durable in the log. -/
theorem acknowledged_records_durable (l : L) (calls : List Call) (records : List Bytes)
    (admissions : List Admission) (t : LogStore L)
    (h : (appendEncodedBatch log records).exec (run log (new l) calls) = (.ok admissions, t)) :
    ∀ b ∈ records, law.Durable t.log b := by
  have hreached := (reached_new law l).run law calls
  obtain ⟨-, -, -, -, hdurable⟩ := appendEncodedBatch_eq_ok law hreached.coherent h
  exact hdurable

end LogStore

/-! ## A log in memory -/

/-- Records in memory, and which of the coming operations fail: an append that fails keeps the
given number of records. -/
structure MemoryLog where
  entries : List Entry
  faults : List (Option ℕ)
deriving DecidableEq

namespace MemoryLog

/-- The fault of the next operation. -/
def fault (s : MemoryLog) : Option ℕ := s.faults.head?.join

/-- The log after an operation that leaves `entries`. -/
def after (s : MemoryLog) (entries : List Entry) : MemoryLog := ⟨entries, s.faults.tail⟩

/-- The error of a lost acknowledgement. -/
def lost : IoError := ⟨.other, "lost append acknowledgement"⟩

/-- An operation of the log: what it leaves when it fails and when it succeeds. -/
def operation {α : Type} (failed : ℕ → List Entry → List Entry) (done : List Entry → List Entry)
    (result : List Entry → α) : Fallible IoError MemoryLog α :=
  of fun s =>
    match s.fault with
    | some n => (.error lost, s.after (failed n s.entries))
    | none => (.ok (result s.entries), s.after (done s.entries))

/-- Keep a prefix of the records, or all of them durably. -/
def append (records : List Record) : Fallible IoError MemoryLog Unit :=
  operation (fun n entries => entries ++ (records.take n).map (⟨·, false⟩))
    (· ++ records.map (⟨·, true⟩)) fun _ => ()

/-- The adapter. -/
def log : AppendLog MemoryLog where
  visitRecords := operation (fun _ entries => entries) (fun entries => entries) fun entries =>
    (entries.map Entry.record, {})
  appendRecord flags bytes := append [⟨flags, bytes⟩]
  appendRecords := append
  sync := operation (fun _ entries => entries) (·.map fun e => { e with durable := true })
    fun _ => ()

lemma settles_refl (entries : List Entry) : Settles entries entries := by
  unfold Settles
  induction entries with
  | nil => exact .nil
  | cons e entries ih => exact .cons ⟨rfl, id⟩ ih

lemma settles_durable (entries : List Entry) :
    Settles entries (entries.map fun e => { e with durable := true }) := by
  unfold Settles
  induction entries with
  | nil => exact .nil
  | cons e entries ih => exact .cons ⟨rfl, fun _ => rfl⟩ ih

/-- The log in memory honours the contract. -/
def lawful : Lawful log where
  entries := MemoryLog.entries
  visit {s t r} h := by
    simp only [log, operation, exec_of] at h
    split at h
    · cases h
      exact ⟨settles_refl _, fun _ _ hr => by cases hr⟩
    · cases h
      refine ⟨settles_refl _, ?_⟩
      intro records stats hr
      cases hr
      rfl
  sync {s t r} h := by
    simp only [log, operation, exec_of] at h
    split at h
    · cases h
      exact ⟨settles_refl _, fun hr => by cases hr⟩
    · cases h
      refine ⟨settles_durable _, ?_⟩
      intro _ e he
      obtain ⟨e', -, rfl⟩ := List.mem_map.mp he
      rfl
  append {records s t r} h := by
    simp only [log, append, operation, exec_of] at h
    split at h
    · next n hn =>
      cases h
      refine ⟨s.entries, (records.take n).map (⟨·, false⟩), rfl, settles_refl _, ?_, ?_⟩
      · rw [List.map_map]
        simpa [Function.comp_def] using List.take_prefix n records
      · intro hr
        cases hr
    · cases h
      refine ⟨s.entries, records.map (⟨·, true⟩), rfl, settles_refl _, ?_, ?_⟩
      · simp [Function.comp_def]
      · intro _
        refine ⟨by simp [Function.comp_def], ?_⟩
        intro e he
        obtain ⟨record, -, rfl⟩ := List.mem_map.mp he
        rfl

end MemoryLog

namespace LogStore

/-- Two encodings of one message, of which the first attempt wrote only the first: after the retry
both are stored, each once. -/
theorem log_store_refines_op_set_after_retry :
    ((MemoryLog.lawful.contents (@run OpId messageSchema _ MemoryLog.log
      (new ⟨[], [none, some 1]⟩)
      [.appendEncodedBatch [messageV1, messageV3], .appendEncodedBatch [messageV1, messageV3]]).log).map
        Record.data).Nodup :=
  (@log_store_refines_op_set OpId messageSchema _ _ MemoryLog.lawful ⟨[], [none, some 1]⟩
    [.appendEncodedBatch [messageV1, messageV3], .appendEncodedBatch [messageV1, messageV3]]
    ).2.2.2.2.2.2 List.nodup_nil

/-- A message whose first append lost its acknowledgement after the record was written: the new
store answers that it is a duplicate, and by then it is durable. -/
theorem acknowledged_records_durable_after_retry :
    MemoryLog.lawful.Durable ⟨[⟨⟨0, messageV1⟩, true⟩], []⟩ messageV1 :=
  @acknowledged_records_durable OpId messageSchema _ _ MemoryLog.lawful ⟨[], [none, some 1]⟩
    [.appendEncodedBatch [messageV1], .reopen] [messageV1] [.duplicate]
    ⟨⟨[⟨⟨0, messageV1⟩, true⟩], []⟩, some (@replay OpId messageSchema [⟨0, messageV1⟩])⟩
    rfl messageV1 (List.mem_singleton.mpr rfl)

end LogStore

end EditChain.Store
