import EditChain.Sync.AccordTheorems
import EditChain.Sync.AdapterTheorems

/-!
# A replica over adapters that do not fail

A `StoreReplica` never returns an error to a session that uses it as the interface says, if its
adapters do not fail, no two records have one key, every record has few references, and stored
content is within the limit and has all declared lengths.
-/

namespace EditChain.Sync

open Core Fallible Store
open Std (ExtTreeMap ExtTreeSet)

variable {Op : Type} [Schema Op] [Blake3] [ContentSchema Op]

/-! ## Records and content -/

/-- The records and the content that exist. -/
structure Holdings where
  records : Finset Bytes
  content : Set Bytes

namespace Holdings

/-- Records can be told apart and counted; content fits and has every declared length. -/
structure Sound (holdings : Holdings) : Prop where
  few : holdings.records.card ≤ maxTotal
  keyed : ∀ bytes ∈ holdings.records, ∃ key, RecordKey.fromEncoded bytes = .ok key
  apart : ∀ a ∈ holdings.records, ∀ b ∈ holdings.records,
    RecordKey.fromEncoded a = RecordKey.fromEncoded b → a = b
  modest : ∀ bytes ∈ holdings.records, ∀ op, Schema.decodeOp bytes = .ok op →
    (ContentSchema.references op).size ≤ maxReferences
  short : ∀ bytes ∈ holdings.content, bytes.length ≤ maxObjectBytes
  matching : ∀ encoded ∈ holdings.records, ∀ op, Schema.decodeOp encoded = .ok op →
    ∀ bytes ∈ holdings.content, Blake3.hash bytes ∈ ContentSchema.references op →
      matchesLen (ContentSchema.references op) (Blake3.hash bytes) bytes.length = true

/-- What two ends know of these objects. -/
def terms (holdings : Holdings) : Terms where
  authentic object bytes :=
    match object.blob with
    | none => bytes ∈ holdings.records ∧ RecordKey.fromEncoded bytes = .ok object.record
    | some hash => bytes ∈ holdings.content ∧ Blake3.hash bytes = hash
  linked key hash :=
    ∃ bytes ∈ holdings.records, RecordKey.fromEncoded bytes = .ok key ∧ References bytes hash

variable {holdings : Holdings} (hs : holdings.Sound)
include hs

/-- Records that exist can be inserted into a snapshot of such records. -/
lemma Sound.insertAll {l : List Bytes} {snapshot : Snapshot} (hl : ∀ b ∈ l, b ∈ holdings.records)
    (hsnapshot : ∀ key bytes, snapshot.record key = some bytes → bytes ∈ holdings.records) :
    ∃ after, (Sync.insertAll l).exec snapshot = (.ok (), after) := by
  induction l generalizing snapshot with
  | nil => exact ⟨snapshot, rfl⟩
  | cons b l ih =>
    have hb := hl b List.mem_cons_self
    obtain ⟨key, hkey⟩ := hs.keyed b hb
    have hinsert := Snapshot.exec_insertEncoded hkey fun previous hprevious =>
      hs.apart previous (hsnapshot key previous hprevious) b hb
        ((Snapshot.record_derived hprevious).trans hkey.symm)
    have hnext : ∀ k bytes, (snapshot.insert key b hkey).record k = some bytes →
        bytes ∈ holdings.records := by
      intro k bytes hrecord
      rcases (Snapshot.record_insertEncoded hinsert k bytes).mp hrecord with hold | ⟨rfl, -⟩
      · exact hsnapshot k bytes hold
      · exact hb
    obtain ⟨after, hrest⟩ := ih (fun c hc => hl c (List.mem_cons_of_mem _ hc)) hnext
    refine ⟨after, ?_⟩
    show (Snapshot.insertEncoded b >>= fun _ => Sync.insertAll l).exec snapshot = _
    rw [exec_bind_of_ok hinsert]
    exact hrest

/-- A snapshot of records that exist can be counted. -/
lemma Sound.len_le {snapshot : Snapshot}
    (h : ∀ key bytes, snapshot.record key = some bytes → bytes ∈ holdings.records) :
    snapshot.len ≤ maxTotal := by
  have hcard : snapshot.records.keys.toFinset.card = snapshot.len := by
    rw [List.toFinset_card_of_nodup ExtTreeMap.nodup_keys]
    exact ExtTreeMap.length_keys
  have hrecord : ∀ key ∈ snapshot.records.keys.toFinset,
      ∃ bytes, snapshot.record key = some bytes := by
    intro key hkey
    rw [List.mem_toFinset, ExtTreeMap.mem_keys, ← ExtTreeMap.contains_iff_mem] at hkey
    exact Snapshot.contains_iff.mp hkey
  rw [← hcard]
  refine le_trans (Finset.card_le_card_of_injOn (fun key => (snapshot.record key).getD []) ?_ ?_)
    hs.few
  · intro key hkey
    obtain ⟨bytes, hbytes⟩ := hrecord key hkey
    dsimp only
    rw [hbytes]
    exact h key bytes hbytes
  · intro a ha b hb heq
    obtain ⟨bytes, hbytes⟩ := hrecord a ha
    obtain ⟨bytes', hbytes'⟩ := hrecord b hb
    dsimp only at heq
    rw [hbytes, hbytes', Option.getD_some, Option.getD_some] at heq
    have hkey := Snapshot.record_derived hbytes
    rw [heq, Snapshot.record_derived hbytes'] at hkey
    exact (Except.ok.inj hkey).symm

end Holdings

namespace StoreReplica

variable {L B P : Type}

/-! ## Adapters that do not fail -/

/-- From the given states the log and the blob storage do not fail for what exists, and the policy
decides. -/
structure Unfailing (adapters : Adapters L B P) (holdings : Holdings) (ready : L → Prop)
    (stored : B → Prop) (policy : P) : Prop where
  visit : ∀ {l}, ready l → ∃ visited l',
    adapters.log.visitRecords.exec l = (.ok visited, l') ∧ ready l'
  sync : ∀ {l}, ready l → ∃ l', adapters.log.sync.exec l = (.ok (), l') ∧ ready l'
  append : ∀ {l records}, ready l → (∀ record ∈ records, record.data ∈ holdings.records) →
    ∃ l', (adapters.log.appendRecords records).exec l = (.ok (), l') ∧ ready l'
  read : ∀ {b} hash, stored b → ∃ found b',
    (adapters.blobs.readContent (.hash256 hash)).exec b = (.ok found, b') ∧ stored b' ∧
      (found = .missing ∨ ∃ bytes ∈ holdings.content, Blake3.hash bytes = hash ∧
        found = .found bytes)
  put : ∀ {b bytes}, stored b → bytes ∈ holdings.content → ∃ b',
    (adapters.blobs.put bytes).exec b = (.ok ⟨.hash256 (Blake3.hash bytes), bytes.length⟩, b') ∧
      stored b'
  check : adapters.policy.check policy = .ok ()
  records : ∀ key bytes, ∃ share, adapters.policy.shareRecord policy key bytes = .ok share
  blobs : ∀ key hash, ∃ share, adapters.policy.shareBlob policy key hash = .ok share

/-- A replica whose log holds records that exist. -/
structure Serving (adapters : Adapters L B P) (law : Lawful adapters.log) (holdings : Holdings)
    (ready : L → Prop) (stored : B → Prop) (policy : P) (s : StoreReplica L B P) : Prop where
  authority : s.policy = policy
  ready : ready s.log
  stored : stored s.blobs
  within : ∀ bytes ∈ bytesOf adapters law s, bytes ∈ holdings.records
  coherent : Coherent adapters law s

/-- A replica that offers one snapshot and holds the records of another one. -/
structure Serves (adapters : Adapters L B P) (law : Lawful adapters.log) (holdings : Holdings)
    (ready : L → Prop) (stored : B → Prop) (policy : P) (s : StoreReplica L B P)
    (offered : Option Snapshot) (held : Snapshot) : Prop
    extends Serving adapters law holdings ready stored policy s where
  offered : ∀ snapshot, offered = some snapshot → ∀ key bytes, snapshot.record key = some bytes →
    bytes ∈ holdings.records ∧ adapters.policy.shareRecord policy key bytes = .ok true
  held : ∀ key bytes, held.record key = some bytes → bytes ∈ bytesOf adapters law s

section Calls

variable {adapters : Adapters L B P} {law : Lawful adapters.log} {holdings : Holdings}
  {ready : L → Prop} {stored : B → Prop} {policy : P} {s t : StoreReplica L B P}

/-- A call that appends nothing. -/
structure Kept (adapters : Adapters L B P) (law : Lawful adapters.log) (holdings : Holdings)
    (ready : L → Prop) (stored : B → Prop) (policy : P) (s t : StoreReplica L B P) : Prop where
  serving : Serving adapters law holdings ready stored policy t
  bytes : bytesOf adapters law t = bytesOf adapters law s

omit [ContentSchema Op] in
lemma Kept.trans {u : StoreReplica L B P}
    (h : Kept adapters law holdings ready stored policy s t)
    (h' : Kept adapters law holdings ready stored policy t u) :
    Kept adapters law holdings ready stored policy s u :=
  ⟨h'.serving, h'.bytes.trans h.bytes⟩

omit [ContentSchema Op] in
lemma Kept.serves {offered : Option Snapshot} {held : Snapshot}
    (h : Kept adapters law holdings ready stored policy s t)
    (hs : Serves adapters law holdings ready stored policy s offered held) :
    Serves adapters law holdings ready stored policy t offered held where
  toServing := h.serving
  offered := hs.offered
  held key bytes hrecord := by
    rw [h.bytes]
    exact hs.held key bytes hrecord

omit [ContentSchema Op] in
/-- What is steady is kept, as long as the adapters are well. -/
lemma Serving.kept (h : Serving adapters law holdings ready stored policy s)
    (hsteady : Steady adapters law s t) (hready : ready t.log) (hstored : stored t.blobs) :
    Kept adapters law holdings ready stored policy s t := by
  refine ⟨⟨hsteady.policy.trans h.authority, hready, hstored, fun bytes hbytes => ?_,
    hsteady.coherent⟩, hsteady.bytes⟩
  rw [hsteady.bytes] at hbytes
  exact h.within bytes hbytes

omit [ContentSchema Op] in
/-- A call of the log that does not fail. -/
lemma Serving.onLog {α : Type} {m : Fallible IoError L α} {ok : α → StoreReplica L B P → Prop}
    {err : IoError → StoreReplica L B P → Prop}
    (h : Serving adapters law holdings ready stored policy s)
    (hm : ∃ a l', m.exec s.log = (.ok a, l') ∧ ready l')
    (hwp : wp (StoreReplica.onLog m) (fun a t => Steady adapters law s t ∧ ok a t) err s) :
    wp (StoreReplica.onLog m)
      (fun a t => Kept adapters law holdings ready stored policy s t ∧ ok a t)
      (fun _ _ => False) s := by
  obtain ⟨a, l', hexec, hready⟩ := hm
  have hrun : (StoreReplica.onLog m).exec s = (.ok a, { s with log := l' }) := by
    unfold StoreReplica.onLog
    rw [exec_zoom, hexec]
  obtain ⟨hsteady, hok⟩ := wp_eq_ok hwp hrun
  unfold wp
  rw [hrun]
  exact ⟨h.kept hsteady hready h.stored, hok⟩

omit [ContentSchema Op] in
lemma serve_sync (ha : Unfailing adapters holdings ready stored policy)
    (h : Serving adapters law holdings ready stored policy s) :
    wp (onLog adapters.log.sync)
      (fun _ t => Kept adapters law holdings ready stored policy s t) (fun _ _ => False) s := by
  obtain ⟨l', hsync, hready⟩ := ha.sync h.ready
  exact wp_weaken (h.onLog ⟨_, l', hsync, hready⟩ (wp_sync h.coherent)) fun _ _ hkept => hkept.1

lemma serve_readRetained (hs : holdings.Sound)
    (ha : Unfailing adapters holdings ready stored policy)
    (h : Serving adapters law holdings ready stored policy s) :
    wp (readRetained adapters)
      (fun snapshot t => Kept adapters law holdings ready stored policy s t ∧
        Replays (bytesOf adapters law t) snapshot) (fun _ _ => False) s := by
  unfold readRetained
  rw [wp_bind]
  apply wp_weaken (serve_sync ha h)
  intro _ s₁ h₁
  obtain ⟨visited, l', hvisit, hready⟩ := ha.visit h₁.serving.ready
  rw [wp_bind]
  apply wp_weaken (h₁.serving.onLog ⟨visited, l', hvisit, hready⟩
    (wp_visitRecords h₁.serving.coherent))
  rintro ⟨records, stats⟩ s₂ ⟨h₂, hrecords⟩
  have hreplays : ∃ snapshot, Replays (bytesOf adapters law s₂) snapshot :=
    hs.insertAll h₂.serving.within fun key bytes hnone => by
      simp [Snapshot.record, Snapshot.empty] at hnone
  obtain ⟨snapshot, hreplays⟩ := hreplays
  dsimp only at hrecords ⊢
  rw [hrecords, hreplays, wp_bind, wp_lift]
  exact ⟨fun _ _ => ⟨h₁.trans h₂, hreplays⟩, fun e he => by cases he⟩

lemma serve_retainedEvidence (hs : holdings.Sound)
    (ha : Unfailing adapters holdings ready stored policy)
    (h : Serving adapters law holdings ready stored policy s) :
    wp (retainedEvidence adapters)
      (fun snapshot t => Kept adapters law holdings ready stored policy s t ∧
        Replays (bytesOf adapters law t) snapshot) (fun _ _ => False) s := by
  unfold retainedEvidence
  rw [wp_bind, wp_get]
  cases hretained : s.retained with
  | some snapshot => exact ⟨⟨h, rfl⟩, h.coherent snapshot hretained⟩
  | none =>
    rw [wp_bind]
    apply wp_weaken (serve_readRetained hs ha h)
    rintro snapshot t ⟨hkept, hreplays⟩
    rw [wp_bind, wp_modify, wp_pure]
    have hserving := hkept.serving
    refine ⟨⟨⟨hserving.authority, hserving.ready, hserving.stored, hserving.within, ?_⟩,
      hkept.bytes⟩, hreplays⟩
    intro kept hsome
    cases hsome
    exact hreplays

omit [ContentSchema Op] in
lemma serve_ensureScope (ha : Unfailing adapters holdings ready stored policy)
    (h : Serving adapters law holdings ready stored policy s) :
    (ensureScope adapters).exec s = (.ok (), s) := by
  unfold ensureScope ask
  rw [exec_bind_of_ok (exec_get s), exec_lift, h.authority, ha.check]

omit [ContentSchema Op] in
/-- A policy that decides about every record filters every snapshot. -/
lemma filtered_ok {permits : RecordKey → Bytes → Except IoError Bool}
    (h : ∀ key bytes, ∃ share, permits key bytes = .ok share) (snapshot : Snapshot) :
    ∃ part, snapshot.filtered permits = .ok part := by
  have hkeys : ∀ entries, ∃ keys, permitted permits entries = .ok keys := by
    intro entries
    induction entries with
    | nil => exact ⟨[], rfl⟩
    | cons entry rest ih =>
      obtain ⟨key, bytes⟩ := entry
      obtain ⟨share, hshare⟩ := h key bytes
      obtain ⟨keys, hrest⟩ := ih
      refine ⟨if share then key :: keys else keys, ?_⟩
      unfold permitted
      rw [hshare, hrest]
      rfl
  obtain ⟨keys, hkeys⟩ := hkeys snapshot.records.toList
  refine ⟨snapshot.restrict keys, ?_⟩
  unfold Snapshot.filtered
  rw [hkeys]
  rfl

/-- A snapshot holds records of the log, and for a peer only those that the policy permits. -/
lemma serve_records (exporting : Bool) (hs : holdings.Sound)
    (ha : Unfailing adapters holdings ready stored policy)
    (h : Serving adapters law holdings ready stored policy s) :
    wp (records adapters exporting)
      (fun snapshot t => Kept adapters law holdings ready stored policy s t ∧
        ∀ key bytes, snapshot.record key = some bytes → bytes ∈ bytesOf adapters law t ∧
          (exporting → adapters.policy.shareRecord policy key bytes = .ok true))
      (fun _ _ => False) s := by
  unfold records
  rw [wp_bind]
  refine wp_of_exec ?_ ?_
  · intro _ t hscope
    rw [serve_ensureScope ha h] at hscope
    cases hscope
    have hfence : wp (fence adapters)
        (fun _ t => Kept adapters law holdings ready stored policy s t) (fun _ _ => False) s := by
      have hsync := serve_sync ha h
      unfold wp at hsync
      unfold wp fence
      rw [exec_of]
      split at hsync
      · next t' hrun =>
        rw [hrun]
        exact hsync
      · exact hsync.elim
    rw [wp_bind]
    apply wp_weaken hfence
    intro _ s₁ h₁
    rw [wp_bind]
    apply wp_weaken (serve_retainedEvidence hs ha h₁.serving)
    rintro snapshot s₂ ⟨h₂, hreplays⟩
    have hpolicy := h₂.serving.authority
    have hdecides : ∀ key bytes, ∃ share, (if exporting then
        adapters.policy.shareRecord policy key bytes else .ok true) = .ok share := by
      intro key bytes
      cases exporting with
      | true => exact ha.records key bytes
      | false => exact ⟨true, rfl⟩
    obtain ⟨part, hpart⟩ := filtered_ok hdecides snapshot
    unfold ask
    rw [wp_bind, wp_get, wp_lift, hpolicy]
    dsimp only
    rw [hpart]
    refine ⟨fun found hfound => ?_, fun e he => by cases he⟩
    cases hfound
    refine ⟨h₁.trans h₂, fun key bytes hrecord => ?_⟩
    obtain ⟨hwhole, hpermits⟩ := Snapshot.record_filtered hpart hrecord
    rw [record_insertAll hreplays] at hwhole
    refine ⟨?_, fun hexporting => ?_⟩
    · rcases hwhole with hempty | ⟨hmem, -⟩
      · simp [Snapshot.record, Snapshot.empty] at hempty
      · exact hmem
    · rw [if_pos hexporting] at hpermits
      exact hpermits
  · intro e t hscope
    rw [serve_ensureScope ha h] at hscope
    cases hscope

/-- The references of a record of a snapshot. -/
lemma serve_references (ha : Unfailing adapters holdings ready stored policy)
    (h : Serving adapters law holdings ready stored policy s) {snapshot : Snapshot}
    {key : RecordKey} {bytes : Bytes} {op : Op} (exporting : Bool)
    (hrecord : snapshot.record key = some bytes) (hop : Schema.decodeOp bytes = .ok op)
    (hshare : exporting → adapters.policy.shareRecord policy key bytes = .ok true) :
    (references adapters snapshot key exporting).exec s
      = (.ok (ContentSchema.references op), s) := by
  unfold StoreReplica.references
  rw [exec_bind_of_ok (serve_ensureScope ha h), hrecord]
  have hasked : (ask fun policy =>
      if exporting then adapters.policy.shareRecord policy key bytes else .ok true).exec s
      = (.ok true, s) := by
    unfold ask
    rw [exec_bind_of_ok (exec_get s), exec_lift, h.authority]
    cases exporting with
    | true => exact congrArg (·, s) (hshare rfl)
    | false => rfl
  dsimp only
  rw [exec_bind_of_ok hasked, hop]
  rfl

omit [ContentSchema Op] in
/-- Referenced content is read, or missing. -/
lemma serve_content (ha : Unfailing adapters holdings ready stored policy)
    (h : Serving adapters law holdings ready stored policy s)
    {references : ExtTreeMap Digest (List ℕ)} {hash : Digest} (hmem : hash ∈ references)
    (hvalid : ∀ bytes ∈ holdings.content, Blake3.hash bytes = hash →
      validateContent references hash bytes = .ok ()) :
    wp (content adapters references hash)
      (fun found t => Kept adapters law holdings ready stored policy s t ∧
        ∀ bytes, found = some bytes → bytes ∈ holdings.content ∧ Blake3.hash bytes = hash)
      (fun _ _ => False) s := by
  obtain ⟨found, b', hread, hstored, hfound⟩ := ha.read hash h.stored
  have hrun : (onBlobs (adapters.blobs.readContent (.hash256 hash))).exec s
      = (.ok found, { s with blobs := b' }) := by
    unfold onBlobs
    rw [exec_zoom, hread]
  have hkept : Kept adapters law holdings ready stored policy s { s with blobs := b' } :=
    ⟨⟨h.authority, h.ready, hstored, h.within, h.coherent⟩, rfl⟩
  unfold content
  rw [wp_guard]
  refine ⟨fun hnot => absurd (ExtTreeMap.contains_iff_mem.mpr hmem) hnot, fun _ => ?_⟩
  unfold wp
  rw [exec_bind_of_ok hrun]
  rcases hfound with rfl | ⟨bytes, hbytes, hhash, rfl⟩
  · exact ⟨hkept, fun bytes hnone => by cases hnone⟩
  · dsimp only
    rw [hvalid bytes hbytes hhash]
    refine ⟨hkept, fun other hother => ?_⟩
    cases hother
    exact ⟨hbytes, hhash⟩

omit [ContentSchema Op] in
lemma serve_publishBlob (ha : Unfailing adapters holdings ready stored policy)
    (h : Serving adapters law holdings ready stored policy s) {hash : Digest} {bytes : Bytes}
    (hbytes : bytes ∈ holdings.content) (hshort : bytes.length ≤ maxObjectBytes)
    (hhash : Blake3.hash bytes = hash) :
    wp (publishBlob adapters hash bytes)
      (fun _ t => Kept adapters law holdings ready stored policy s t) (fun _ _ => False) s := by
  obtain ⟨b', hput, hstored⟩ := ha.put h.stored hbytes
  have hrun : (onBlobs (adapters.blobs.put bytes)).exec s
      = (.ok ⟨.hash256 (Blake3.hash bytes), bytes.length⟩, { s with blobs := b' }) := by
    unfold onBlobs
    rw [exec_zoom, hput]
  unfold publishBlob
  rw [wp_guard]
  refine ⟨fun hlong => ?_, fun _ => ?_⟩
  · unfold maxObjectBytes at hshort
    omega
  · unfold wp
    rw [exec_bind_of_ok hrun, hhash, if_neg (by simp)]
    exact ⟨⟨h.authority, h.ready, hstored, h.within, h.coherent⟩, rfl⟩

/-- Records that exist are classified. -/
lemma classify_ok (hs : holdings.Sound) {records : List (RecordKey × Bytes)} {batch : Ingest}
    (hrecords : ∀ record ∈ records, record.2 ∈ holdings.records ∧
      RecordKey.fromEncoded record.2 = .ok record.1)
    (hknown : ∀ key bytes, batch.known.record key = some bytes → bytes ∈ holdings.records) :
    ∃ batch', (classify records).exec batch = (.ok (), batch') ∧
      ∀ record ∈ batch'.pending, record ∈ batch.pending ∨ record.data ∈ records.map Prod.snd := by
  induction records generalizing batch with
  | nil => exact ⟨batch, rfl, fun record hrecord => .inl hrecord⟩
  | cons record rest ih =>
    obtain ⟨key, bytes⟩ := record
    obtain ⟨hmem, hkey⟩ := hrecords (key, bytes) List.mem_cons_self
    have hrest := fun record hrecord => hrecords record (List.mem_cons_of_mem (key, bytes) hrecord)
    unfold classify
    rw [exec_bind_of_ok (exec_get batch)]
    cases hold : batch.known.record key with
    | some previous =>
      have hsame : previous = bytes := hs.apart previous (hknown key previous hold) bytes hmem
        ((Snapshot.record_derived hold).trans hkey.symm)
      obtain ⟨batch', hclassify, hpending⟩ := @ih { batch with duplicate := true } hrest hknown
      refine ⟨batch', ?_, fun record hrecord => ?_⟩
      · dsimp only
        rw [exec_guard, if_neg (not_not.mpr hsame), exec_bind_of_ok (exec_set _ _)]
        exact hclassify
      · exact (hpending record hrecord).imp_right (List.mem_cons_of_mem _)
    | none =>
      have hinsert := Snapshot.exec_insertEncoded (s := batch.known) hkey (by simp [hold])
      obtain ⟨batch', hclassify, hpending⟩ := @ih { batch with
          known := batch.known.insert key bytes hkey
          pending := batch.pending ++ [Record.mk 0 bytes] } hrest fun k b hrecord => by
        rcases (Snapshot.record_insertEncoded hinsert k b).mp hrecord with hpast | ⟨rfl, -⟩
        · exact hknown k b hpast
        · exact hmem
      refine ⟨batch', ?_, fun record hrecord => ?_⟩
      · dsimp only
        rw [hinsert]
        dsimp only
        rw [exec_bind_of_ok (exec_lift _ _), exec_bind_of_ok (exec_set _ _)]
        exact hclassify
      · rcases hpending record hrecord with hnew | hlater
        · rcases List.mem_append.mp hnew with hpast | hthis
          · exact .inl hpast
          · rw [List.mem_singleton.mp hthis]
            exact .inr List.mem_cons_self
        · exact .inr (List.mem_cons_of_mem _ hlater)

/-- A batch of records that exist is appended. -/
lemma serve_append (hs : holdings.Sound) (ha : Unfailing adapters holdings ready stored policy)
    (h : Serving adapters law holdings ready stored policy s) {batch : List (RecordKey × Bytes)}
    (hvalid : validateRecords batch = .ok ())
    (hbatch : ∀ record ∈ batch, record.2 ∈ holdings.records) :
    wp (append adapters batch)
      (fun _ t => Serving adapters law holdings ready stored policy t ∧
        (∀ bytes ∈ bytesOf adapters law s, bytes ∈ bytesOf adapters law t) ∧
        ∀ record ∈ batch, record.2 ∈ bytesOf adapters law t) (fun _ _ => False) s := by
  have hderived : ∀ record ∈ batch, RecordKey.fromEncoded record.2 = .ok record.1 :=
    fun record hrecord => validateRecords_derived hvalid hrecord
  unfold append
  rw [hvalid, wp_bind, wp_lift]
  refine ⟨fun _ _ => ?_, fun e he => by cases he⟩
  refine (wp_bind ..).mpr (wp_of_exec (fun _ t hscope => ?_) fun e t hscope => ?_)
  swap
  · rw [serve_ensureScope ha h] at hscope
    cases hscope
  rw [serve_ensureScope ha h] at hscope
  cases hscope
  rw [wp_bind]
  apply wp_weaken (serve_retainedEvidence hs ha h)
  rintro known s₁ ⟨h₁, hreplays⟩
  rw [wp_bind, wp_modify]
  have hserving : Serving adapters law holdings ready stored policy (s₁.retain none) :=
    ⟨h₁.serving.authority, h₁.serving.ready, h₁.serving.stored, h₁.serving.within,
      fun snapshot hnone => by cases hnone⟩
  have hknown : ∀ key bytes, known.record key = some bytes → bytes ∈ holdings.records := by
    intro key bytes hrecord
    rcases (record_insertAll hreplays key bytes).mp hrecord with hempty | ⟨hmem, -⟩
    · simp [Snapshot.record, Snapshot.empty] at hempty
    · exact h₁.serving.within bytes hmem
  have hall : ∀ record ∈ batch, record.2 ∈ holdings.records ∧
      RecordKey.fromEncoded record.2 = .ok record.1 :=
    fun record hrecord => ⟨hbatch record hrecord, hderived record hrecord⟩
  obtain ⟨ingest, hclassify, hpending⟩ :
      ∃ ingest, (classify batch).exec { known := known } = (.ok (), ingest) ∧
        ∀ record ∈ ingest.pending, record ∈ [] ∨ record.data ∈ batch.map Prod.snd :=
    classify_ok hs hall hknown
  have hstart : Classified (bytesOf adapters law s₁) { known := known } :=
    ⟨by simpa using hreplays, List.nodup_nil, by simp⟩
  obtain ⟨hclassified, hplaced, -, -⟩ := exec_classify hderived hstart hclassify
  have hexist : ∀ record ∈ ingest.pending, record.data ∈ holdings.records := by
    intro record hrecord
    rcases hpending record hrecord with hnone | hthis
    · cases hnone
    · obtain ⟨pair, hpair, heq⟩ := List.mem_map.mp hthis
      rw [← heq]
      exact hbatch pair hpair
  dsimp only
  rw [hclassify, wp_bind, wp_lift]
  refine ⟨fun _ _ => ?_, fun e he => by cases he⟩
  -- the new records follow what was in the log
  have hlast : ∀ s₂, Kept adapters law holdings ready stored policy (s₁.retain none) s₂ →
      wp (onLog (adapters.log.appendRecords ingest.pending) >>= fun _ =>
          modify (retain (some ingest.known)))
        (fun _ t => Serving adapters law holdings ready stored policy t ∧
          (∀ bytes ∈ bytesOf adapters law s, bytes ∈ bytesOf adapters law t) ∧
          ∀ record ∈ batch, record.2 ∈ bytesOf adapters law t) (fun _ _ => False) s₂ := by
    intro s₂ h₂
    obtain ⟨l', happend, hready⟩ := ha.append h₂.serving.ready hexist
    have hrun : (onLog (adapters.log.appendRecords ingest.pending)).exec s₂
        = (.ok (), { s₂ with log := l' }) := by
      unfold onLog
      rw [exec_zoom, happend]
    obtain ⟨kept, -, hcontents, hok⟩ := law.contents_append happend
    obtain ⟨rfl, -⟩ := hok rfl
    have hbytes : (law.contents l').map Record.data
        = bytesOf adapters law s₁ ++ ingest.pending.map Record.data := by
      rw [hcontents, List.map_append]
      exact congrArg (· ++ _) h₂.bytes
    unfold wp
    rw [exec_bind_of_ok hrun, exec_modify]
    refine ⟨⟨h₂.serving.authority, hready, h₂.serving.stored, fun bytes hmem => ?_,
      fun snapshot hsome => ?_⟩, fun bytes hmem => ?_, fun record hrecord => ?_⟩
    · have hmem' : bytes ∈ (law.contents l').map Record.data := hmem
      rw [hbytes, List.mem_append] at hmem'
      rcases hmem' with hold | hnew
      · exact h₁.serving.within bytes hold
      · obtain ⟨record, hrecord, rfl⟩ := List.mem_map.mp hnew
        exact hexist record hrecord
    · cases hsome
      show Replays ((law.contents l').map Record.data) ingest.known
      rw [hbytes]
      exact hclassified.replays
    · show bytes ∈ (law.contents l').map Record.data
      rw [hbytes, h₁.bytes]
      exact List.mem_append_left _ hmem
    · show record.2 ∈ (law.contents l').map Record.data
      rw [hbytes, List.mem_append]
      rcases hplaced record hrecord with hnew | ⟨-, hold⟩
      · exact .inr hnew
      · exact .inl hold
  unfold commit
  by_cases hduplicate : ingest.duplicate = true
  · rw [if_pos hduplicate, wp_bind]
    exact wp_weaken (serve_sync ha hserving) fun _ s₂ h₂ => hlast s₂ h₂
  · rw [if_neg hduplicate]
    exact hlast _ ⟨hserving, rfl⟩

lemma serve_ingestRecords (hs : holdings.Sound)
    (ha : Unfailing adapters holdings ready stored policy) {offered : Option Snapshot}
    {held : Snapshot} (h : Serves adapters law holdings ready stored policy s offered held)
    {batch : List (RecordKey × Bytes)} (hvalid : validateRecords batch = .ok ())
    (hbatch : ∀ record ∈ batch, record.2 ∈ holdings.records) :
    wp (ingestRecords adapters batch)
      (fun _ p => Serves adapters law holdings ready stored policy p.1 offered p.2 ∧
        ∀ key, held.contains key ∨ key ∈ batch.map Prod.fst → p.2.contains key)
      (fun _ _ => False) (s, held) := by
  have happend := serve_append hs ha h.toServing hvalid hbatch
  unfold wp at happend
  cases hrun : (append adapters batch).exec s with
  | mk result t =>
    rw [hrun] at happend
    cases result with
    | error e => exact happend.elim
    | ok _ =>
      obtain ⟨hserving, hold, hnew⟩ := happend
      have hexist : ∀ b ∈ batch.map Prod.snd, b ∈ holdings.records := by
        intro b hb
        obtain ⟨record, hrecord, rfl⟩ := List.mem_map.mp hb
        exact hbatch record hrecord
      obtain ⟨after, hinsert⟩ := hs.insertAll hexist
        fun key bytes hrecord => h.within bytes (h.held key bytes hrecord)
      unfold wp ingestRecords
      rw [exec_bind, exec_zoom, hrun]
      dsimp only
      rw [exec_zoom, hinsert]
      refine ⟨⟨hserving, h.offered, fun key bytes hrecord => ?_⟩, fun key hkey => ?_⟩
      · rcases (record_insertAll hinsert key bytes).mp hrecord with hpast | ⟨hmem, -⟩
        · exact hold bytes (h.held key bytes hpast)
        · obtain ⟨record, hnewer, rfl⟩ := List.mem_map.mp hmem
          exact hnew record hnewer
      · rw [Snapshot.contains_iff]
        rcases hkey with hkey | hkey
        · obtain ⟨bytes, hbytes⟩ := Snapshot.contains_iff.mp hkey
          exact ⟨bytes, (record_insertAll hinsert key bytes).mpr (.inl hbytes)⟩
        · obtain ⟨record, hrecord, rfl⟩ := List.mem_map.mp hkey
          refine ⟨record.2, (record_insertAll hinsert record.1 record.2).mpr (.inr ⟨?_, ?_⟩)⟩
          · exact List.mem_map.mpr ⟨record, hrecord, rfl⟩
          · exact validateRecords_derived hvalid hrecord

/-- What a record that exists refers to. -/
lemma linked_references (hs : holdings.Sound) {key : RecordKey} {bytes : Bytes} {hash : Digest}
    (hbytes : bytes ∈ holdings.records) (hkey : RecordKey.fromEncoded bytes = .ok key)
    (hlinked : holdings.terms.linked key hash) :
    ∃ op, Schema.decodeOp bytes = .ok op ∧ hash ∈ ContentSchema.references op ∧
      ∀ content ∈ holdings.content, Blake3.hash content = hash →
        validateContent (ContentSchema.references op) hash content = .ok () := by
  obtain ⟨other, hother, hotherkey, op, hop, hmem⟩ := hlinked
  have hsame : other = bytes := hs.apart other hother bytes hbytes (hotherkey.trans hkey.symm)
  rw [hsame] at hop
  refine ⟨op, hop, hmem, fun content hcontent hhash => ?_⟩
  have hmatches := hs.matching bytes hbytes op hop content hcontent (hhash ▸ hmem)
  rw [hhash] at hmatches
  exact validateContent_eq_ok.mpr ⟨hs.short content hcontent, hhash, hmatches⟩

/-- A replica over adapters that do not fail never returns an error to its session. -/
theorem reliable (hs : holdings.Sound) (ha : Unfailing adapters holdings ready stored policy) :
    @Reliable Op _ _ (StoreReplica L B P) (StoreReplica.storage adapters)
      (adapters.policy.namespaceOf policy) holdings.terms
      (Serves adapters law holdings ready stored policy) :=
  letI := StoreReplica.storage adapters
  { named := fun h => congrArg adapters.policy.namespaceOf h.authority
    offers := by
      intro r offered held key bytes h hrecord
      exact ⟨(h.offered offered rfl key bytes hrecord).1, Snapshot.record_derived hrecord⟩
    ensureScope := by
      intro r offered held h
      show wp (StoreReplica.ensureScope adapters) _ _ r
      unfold wp
      rw [serve_ensureScope ha h.toServing]
      exact h
    snapshot := by
      intro r offered held h
      apply wp_weaken (serve_records true hs ha h.toServing)
      rintro snapshot t ⟨hkept, hrecords⟩
      have hexist : ∀ key bytes, snapshot.record key = some bytes → bytes ∈ holdings.records :=
        fun key bytes hrecord => hkept.serving.within bytes (hrecords key bytes hrecord).1
      refine ⟨⟨hkept.serving, ?_, (hkept.serves h).held⟩, hs.len_le hexist⟩
      intro found hfound key bytes hrecord
      cases hfound
      exact ⟨hexist key bytes hrecord, (hrecords key bytes hrecord).2 rfl⟩
    receivingSnapshot := by
      intro r offered held h
      apply wp_weaken (serve_records false hs ha h.toServing)
      rintro snapshot t ⟨hkept, hrecords⟩
      exact ⟨hkept.serving, h.offered, fun key bytes hrecord => (hrecords key bytes hrecord).1⟩
    ingestRecords := by
      intro records r offered held h hvalid hauthentic
      exact serve_ingestRecords hs ha h hvalid fun record hrecord => (hauthentic record hrecord).1
    blobHashes := by
      intro key r offered held h hcontains
      obtain ⟨bytes, hrecord⟩ := Snapshot.contains_iff.mp hcontains
      have hkey := Snapshot.record_derived hrecord
      have hexist := h.within bytes (h.held key bytes hrecord)
      obtain ⟨op, hop⟩ := decodeOp_of_fromEncoded hkey
      have hreferences := serve_references ha h.toServing false hrecord hop
        fun hfalse => by cases hfalse
      show wp (StoreReplica.blobHashes adapters held key) _ _ r
      unfold wp StoreReplica.blobHashes
      rw [exec_bind_of_ok hreferences]
      refine ⟨h, ?_, fun hash hhash => ⟨bytes, hexist, hkey, op, hop, ?_⟩⟩
      · refine le_trans ExtTreeSet.size_ofList_le ?_
        rw [ExtTreeMap.length_keys]
        exact hs.modest bytes hexist op hop
      · rw [ExtTreeSet.mem_ofList, List.contains_iff_mem, ExtTreeMap.mem_keys] at hhash
        exact hhash
    readBlob := by
      intro key hash r offered held h hcontains hlinked
      obtain ⟨bytes, hrecord⟩ := Snapshot.contains_iff.mp hcontains
      obtain ⟨hexist, hshare⟩ := h.offered offered rfl key bytes hrecord
      obtain ⟨op, hop, hmem, hvalid⟩ :=
        linked_references hs hexist (Snapshot.record_derived hrecord) hlinked
      have hreferences := serve_references ha h.toServing true hrecord hop
        fun _ => hshare
      obtain ⟨share, hblob⟩ := ha.blobs key hash
      have hasked : (ask fun policy => adapters.policy.shareBlob policy key hash).exec r
          = (.ok share, r) := by
        unfold ask
        rw [exec_bind_of_ok (exec_get r), exec_lift, h.authority]
        exact congrArg (·, r) hblob
      show wp (StoreReplica.readBlob adapters offered key hash) _ _ r
      unfold wp StoreReplica.readBlob
      rw [exec_bind_of_ok hreferences, exec_bind_of_ok hasked]
      cases share with
      | false => exact ⟨h, fun content hnone => by cases hnone⟩
      | true =>
        apply wp_weaken (serve_content ha h.toServing hmem hvalid)
        rintro found t ⟨hkept, hfound⟩
        refine ⟨hkept.serves h, fun content hsome => ?_⟩
        obtain ⟨hcontent, hhash⟩ := hfound content hsome
        exact ⟨hs.short content hcontent, hcontent, hhash⟩
    ingestBlob := by
      rintro key hash content r offered held h hcontains hlinked ⟨hcontent, hhash⟩
      obtain ⟨bytes, hrecord⟩ := Snapshot.contains_iff.mp hcontains
      have hkey := Snapshot.record_derived hrecord
      obtain ⟨op, hop, -, hvalid⟩ :=
        linked_references hs (h.within bytes (h.held key bytes hrecord)) hkey hlinked
      show wp (StoreReplica.ingestBlob adapters key hash content) _ _ r
      unfold StoreReplica.ingestBlob
      rw [wp_bind]
      apply wp_weaken (serve_retainedEvidence hs ha h.toServing)
      rintro snapshot t ⟨hkept, hreplays⟩
      have hknown : snapshot.record key = some bytes := by
        refine (record_insertAll hreplays key bytes).mpr (.inr ⟨?_, hkey⟩)
        rw [hkept.bytes]
        exact h.held key bytes hrecord
      have hreferences := serve_references ha hkept.serving false hknown hop
        fun hfalse => by cases hfalse
      have hlift : (lift (validateContent (ContentSchema.references op) hash content) :
          Fallible IoError (StoreReplica L B P) Unit).exec t = (.ok (), t) := by
        rw [exec_lift, hvalid content hcontent hhash]
      unfold wp
      rw [exec_bind_of_ok hreferences, exec_bind_of_ok hlift]
      apply wp_weaken
        (serve_publishBlob ha hkept.serving hcontent (hs.short content hcontent) hhash)
      intro _ u hpublished
      have hserves := (hkept.trans hpublished).serves h
      exact ⟨hserves.toServing, hserves.offered, hserves.held⟩
    confirmBlob := by
      intro key hash r offered held h hcontains hlinked
      obtain ⟨bytes, hrecord⟩ := Snapshot.contains_iff.mp hcontains
      obtain ⟨op, hop, hmem, hvalid⟩ := linked_references hs
        (h.within bytes (h.held key bytes hrecord)) (Snapshot.record_derived hrecord) hlinked
      have hreferences := serve_references ha h.toServing false hrecord hop
        fun hfalse => by cases hfalse
      show wp (StoreReplica.confirmBlob adapters held key hash) _ _ r
      unfold wp StoreReplica.confirmBlob
      rw [exec_bind_of_ok hreferences]
      refine (wp_bind ..).mpr (wp_weaken (serve_content ha h.toServing hmem hvalid) ?_)
      rintro found t ⟨hkept, hfound⟩
      cases found with
      | none => exact hkept.serves h
      | some content =>
        obtain ⟨hcontent, hhash⟩ := hfound content rfl
        dsimp only
        rw [wp_bind]
        apply wp_weaken
          (serve_publishBlob ha hkept.serving hcontent (hs.short content hcontent) hhash)
        intro _ u hpublished
        exact (hkept.trans hpublished).serves h }

/-- A local append of records that exist does not concern the session. -/
lemma Serves.append (hs : holdings.Sound) (ha : Unfailing adapters holdings ready stored policy)
    {offered : Option Snapshot} {held : Snapshot}
    (h : Serves adapters law holdings ready stored policy s offered held)
    {batch : List (RecordKey × Bytes)} (hvalid : validateRecords batch = .ok ())
    (hbatch : ∀ record ∈ batch, record.2 ∈ holdings.records) :
    Serves adapters law holdings ready stored policy
      ((StoreReplica.append adapters batch).exec s).2 offered held := by
  have happend := serve_append hs ha h.toServing hvalid hbatch
  unfold wp at happend
  cases hrun : (StoreReplica.append adapters batch).exec s with
  | mk result t =>
    rw [hrun] at happend
    cases result with
    | error e => exact happend.elim
    | ok _ =>
      obtain ⟨hserving, hold, -⟩ := happend
      exact ⟨hserving, h.offered, fun key bytes hrecord => hold bytes (h.held key bytes hrecord)⟩

omit [ContentSchema Op] in
/-- A new replica over adapters in such a state. -/
lemma Serves.of_new {log : L} {blobs : B} (hready : ready log) (hstored : stored blobs)
    (hwithin : ∀ record ∈ law.contents log, record.data ∈ holdings.records) :
    Serves adapters law holdings ready stored policy (new log blobs policy) none .empty where
  authority := rfl
  ready := hready
  stored := hstored
  within bytes hbytes := by
    obtain ⟨record, hrecord, rfl⟩ := List.mem_map.mp hbytes
    exact hwithin record hrecord
  coherent snapshot hnone := by cases hnone
  offered snapshot hnone := by cases hnone
  held key bytes hnone := by simp [Snapshot.record, Snapshot.empty] at hnone

end Calls

/-! ## Adapters in memory -/

omit [Blake3] in
/-- An operation of a log in memory without faults. -/
lemma exec_operation {α : Type} {failed : ℕ → List Entry → List Entry}
    {done : List Entry → List Entry} {result : List Entry → α} {l : MemoryLog}
    (h : l.faults = []) : (MemoryLog.operation failed done result).exec l
      = (.ok (result l.entries), ⟨done l.entries, []⟩) := by
  simp [MemoryLog.operation, MemoryLog.fault, MemoryLog.after, h]

omit [ContentSchema Op] in
/-- A log in memory without faults and blobs in memory do not fail. -/
lemma memory_unfailing (holdings : Holdings) (scope : ExportScope) :
    Unfailing memoryAdapters holdings (fun log => log.faults = [])
      (fun blobs => ∀ bytes ∈ blobs, bytes ∈ holdings.content) scope where
  visit {l} hready := by
    refine ⟨(l.entries.map Entry.record, {}), ⟨l.entries, []⟩, ?_, rfl⟩
    simp [memoryAdapters, MemoryLog.log, exec_operation hready]
  sync {l} hready := by
    refine ⟨⟨l.entries.map fun e => { e with durable := true }, []⟩, ?_, rfl⟩
    simp [memoryAdapters, MemoryLog.log, exec_operation hready]
  append {l records} hready _ := by
    refine ⟨⟨l.entries ++ records.map (⟨·, true⟩), []⟩, ?_, rfl⟩
    simp [memoryAdapters, MemoryLog.log, MemoryLog.append, exec_operation hready]
  read {blobs} hash hstored := by
    cases hfind : blobs.find? fun bytes => decide (Blake3.hash bytes = hash) with
    | none =>
      refine ⟨.missing, blobs, ?_, hstored, .inl rfl⟩
      simp [memoryAdapters, memoryBlobs, exec_bind, hfind]
    | some bytes =>
      refine ⟨.found bytes, blobs, ?_, hstored, .inr ⟨bytes, ?_, ?_, rfl⟩⟩
      · simp [memoryAdapters, memoryBlobs, exec_bind, hfind]
      · exact hstored bytes (List.mem_of_find?_eq_some hfind)
      · simpa using List.find?_some hfind
  put {blobs bytes} hstored hbytes := by
    refine ⟨bytes :: blobs, rfl, fun other hother => ?_⟩
    rcases List.mem_cons.mp hother with rfl | hold
    · exact hbytes
    · exact hstored other hold
  check := rfl
  records _ _ := ⟨_, rfl⟩
  blobs _ _ := ⟨_, rfl⟩

end StoreReplica

end EditChain.Sync
