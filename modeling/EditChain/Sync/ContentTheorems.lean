import EditChain.Sync.ConsentTheorems
import EditChain.Sync.Device
import EditChain.Sync.PeerTheorems

/-!
# Content stays private

Content is sent only for a record that is exported and refers to it, and only if no peer brought the
record or the content is in the ledger of received content. A hash enters that ledger only with the
bytes of a peer, or because a record of this device shares it. So a record that a peer brings cannot
be used to ask for content that the peer does not have.
-/

namespace EditChain.Sync

open Core Fallible Store
open Std (ExtTreeMap ExtTreeSet)

variable {Op : Type} [Schema Op] [Blake3] [Checksum] [ScopeJson] [ContentSchema Op]

/-! ## Bytes of a peer -/

/-- The bytes that a message carries. -/
def Message.carried : Message → Option Bytes
  | .chunk _ _ _ _ bytes => some bytes
  | _ => none

/-- Bytes put together from chunks that a peer sent, in order. -/
def Given (received : List Message) (bytes : Bytes) : Prop :=
  ∃ parts : List Bytes, parts.Sublist (received.filterMap Message.carried) ∧ bytes = parts.flatten

/-- A peer supplied the complete bytes of some content. -/
def Supplied (received : List Message) (hash : Digest) : Prop :=
  ∃ bytes, Given received bytes ∧ Blake3.hash bytes = hash

/-- A peer found no other bytes with the digest of a record in the log. -/
def Distinct (received : List Message) (d : Directory) : Prop :=
  ∀ bytes, Given received bytes → ∀ o ∈ history d,
    Blake3.hash bytes = Blake3.hash o.2.bytes → bytes = o.2.bytes

omit [Schema Op] [Blake3] [Checksum] [ScopeJson] [ContentSchema Op] in
lemma given_nil (received : List Message) : Given received [] :=
  ⟨[], List.nil_sublist _, rfl⟩

omit [Schema Op] [Blake3] [Checksum] [ScopeJson] [ContentSchema Op] in
lemma Given.mono {received : List Message} {bytes : Bytes} (h : Given received bytes)
    (later : List Message) : Given (received ++ later) bytes := by
  obtain ⟨parts, hparts, rfl⟩ := h
  refine ⟨parts, ?_, rfl⟩
  rw [List.filterMap_append]
  exact hparts.trans (List.sublist_append_left _ _)

omit [Schema Op] [Blake3] [Checksum] [ScopeJson] [ContentSchema Op] in
/-- One more chunk. -/
lemma Given.chunk {received : List Message} {bytes added : Bytes} (h : Given received bytes)
    {message : Message} (hmessage : message.carried = some added) :
    Given (received ++ [message]) (bytes ++ added) := by
  obtain ⟨parts, hparts, rfl⟩ := h
  refine ⟨parts ++ [added], ?_, ?_⟩
  · rw [List.filterMap_append]
    apply hparts.append
    simp [hmessage]
  · rw [List.flatten_append, List.flatten_singleton]

namespace Replica

/-! ## Records that share their content -/

/-- A record that may be offered to a peer, with its bytes. -/
def Exported (r : Root) (key : RecordKey) (bytes : Bytes) : Prop :=
  ∃ scope record, r.scope = some scope ∧ firstOf (history r.chain) key = some record
    ∧ record.bytes = bytes ∧ scope.excludes key record.segment = false

/-- The hash is in the ledger of received content. -/
def ReceivedHash (r : Root) (hash : Digest) : Prop :=
  ∃ scope, r.scope = some scope ∧ hash ∈ scope.receivedBlobs

/-- A record that is exported and was not received. -/
def Shared (r : Root) (key : RecordKey) (bytes : Bytes) : Prop :=
  Exported r key bytes ∧ ¬ ReceivedKey r key

/-- Content that a record of this device shares. -/
def Referenced (r : Root) (hash : Digest) : Prop :=
  ∃ key bytes, Shared r key bytes ∧ References bytes hash

/-- Content that may be sent for a record. -/
def Sendable (r : Root) (key : RecordKey) (hash : Digest) : Prop :=
  ∃ bytes, Exported r key bytes ∧ References bytes hash
    ∧ (¬ ReceivedKey r key ∨ ReceivedHash r hash)

/-- The kinds of steps under one sharing scope. -/
def Fixed (kind : Kind) : Prop := kind ≠ .fence ∧ ∀ backfill, kind ≠ .select backfill

variable {r r' : Root} {kind : Kind} {allowed : Kind → Prop}

omit [ScopeJson] [ContentSchema Op] in
/-- A log that grows keeps what is first under a key. -/
lemma Exported.wrote {key : RecordKey} {bytes : Bytes} (h : Exported r key bytes) {d : Directory}
    {added : List Bytes} (hwrote : Wrote r.chain d added) :
    Exported { r with chain := d } key bytes := by
  obtain ⟨scope, record, hscope, hfirst, hbytes, hexcludes⟩ := h
  exact ⟨scope, record, hscope, firstOf_prefix (prefix_of_wrote hwrote) hfirst, hbytes, hexcludes⟩

omit [ScopeJson] [ContentSchema Op] in
/-- A record that is exported stays exported, and is not entered in the ledger later. -/
lemma Step.exported (hr : Consistent r) (hstep : Step kind r r') (hkind : Fixed kind)
    {key : RecordKey} {bytes : Bytes} (h : Exported r key bytes) :
    Exported r' key bytes ∧ (ReceivedKey r' key → ReceivedKey r key) := by
  obtain ⟨scope, record, hscope, hfirst, hbytes, hexcludes⟩ := id h
  cases hstep with
  | script io => exact ⟨h, id⟩
  | chain hwrote => exact ⟨h.wrote hwrote, id⟩
  | append hwrote => exact ⟨h.wrote hwrote, id⟩
  | content bytes hfresh => exact ⟨h, id⟩
  | bind hnone _ =>
    rw [hnone] at hscope
    cases hscope
  | ledger hs _ hknown records =>
    rw [hs] at hscope
    cases hscope
    have hledger := hr.ledger hs hknown records
    refine ⟨⟨_, record, rfl, hfirst, hbytes, ?_⟩, ?_⟩
    · -- a receipt lifts exclusions and keeps the cutoff
      unfold Scope.excludes Scope.beforeCutoff at hexcludes ⊢
      rw [Bool.or_eq_false_iff] at hexcludes ⊢
      refine ⟨?_, ?_⟩
      · rw [← Bool.not_eq_true, ExtTreeSet.contains_iff_mem] at hexcludes ⊢
        exact fun hkey => hexcludes.1 (hledger.excluded key hkey)
      · rw [hledger.cutoff]
        exact hexcludes.2
    · rintro ⟨s, hs', hkey⟩
      cases hs'
      rcases hledger.entered key hkey with hold | hnew
      · exact ⟨scope, hs, hold⟩
      · exact absurd ⟨record, (hknown.first key).trans hfirst, hexcludes⟩ hnew
  | receive _ _ hwrote _ => exact ⟨h.wrote hwrote, id⟩
  | blob _ _ bytes hfresh => exact ⟨h, id⟩
  | receivedBlob hs _ hash =>
    rw [hs] at hscope
    cases hscope
    refine ⟨⟨_, record, rfl, hfirst, hbytes, hexcludes⟩, ?_⟩
    rintro ⟨s, hs', hkey⟩
    cases hs'
    exact ⟨scope, hs, hkey⟩
  | fence _ => exact absurd rfl hkind.1
  | @select _ _ _ backfill _ _ _ _ _ => exact absurd rfl (hkind.2 backfill)

omit [ScopeJson] [ContentSchema Op] in
lemma Path.exported (hr : Consistent r) (hpath : Path Fixed r r') {key : RecordKey} {bytes : Bytes}
    (h : Exported r key bytes) :
    Exported r' key bytes ∧ (ReceivedKey r' key → ReceivedKey r key) := by
  induction hpath with
  | refl => exact ⟨h, id⟩
  | @tail r₁ r₂ hpath hstep ih =>
    obtain ⟨kind, hkind, hstep⟩ := hstep
    have hpath : Path Fixed r r₁ := hpath
    have hfixed : Fixed kind := by
      rcases hkind with rfl | hfixed
      · exact ⟨fun hne => (by cases hne), fun _ hne => (by cases hne)⟩
      · exact hfixed
    obtain ⟨hexported, hreceived⟩ := hstep.exported (hpath.preserves hr).1 hfixed ih.1
    exact ⟨hexported, fun hkey => ih.2 (hreceived hkey)⟩

omit [ScopeJson] [ContentSchema Op] in
lemma Path.shared (hr : Consistent r) (hpath : Path Fixed r r') {key : RecordKey} {bytes : Bytes}
    (h : Shared r key bytes) : Shared r' key bytes := by
  obtain ⟨hexported, hreceived⟩ := hpath.exported hr h.1
  exact ⟨hexported, fun hkey => h.2 (hreceived hkey)⟩

omit [ScopeJson] [ContentSchema Op] in
/-- What is in the ledger of received content stays there. -/
lemma Path.receivedHash (hr : Consistent r) (hpath : Path allowed r r') {hash : Digest}
    (h : ReceivedHash r hash) : ReceivedHash r' hash := by
  obtain ⟨scope, hscope, hhash⟩ := h
  obtain ⟨scope', hscope', -, -, hblobs⟩ := (hpath.preserves hr).2.scope scope hscope
  exact ⟨scope', hscope', hblobs hash hhash⟩

omit [ScopeJson] in
lemma Path.sendable (hr : Consistent r) (hpath : Path Fixed r r') {key : RecordKey} {hash : Digest}
    (h : Sendable r key hash) : Sendable r' key hash := by
  obtain ⟨bytes, hexported, hreferences, hpermitted⟩ := h
  obtain ⟨hexported', hreceived⟩ := hpath.exported hr hexported
  refine ⟨bytes, hexported', hreferences, ?_⟩
  rcases hpermitted with hnot | hhash
  · exact .inl fun hkey => hnot (hreceived hkey)
  · exact .inr (hpath.receivedHash hr hhash)

omit [ScopeJson] [ContentSchema Op] in
/-- Only the publication of content enters a hash in the ledger. -/
lemma Step.entered (hr : Consistent r) (hstep : Step kind r r') {hash : Digest}
    (h : ReceivedHash r' hash) : ReceivedHash r hash ∨ ∃ revision, kind = .publish revision hash := by
  obtain ⟨scope, hscope, hhash⟩ := id h
  cases hstep with
  | bind hnone hinitial =>
    cases hscope
    rw [hinitial.receivedBlobs] at hhash
    simp at hhash
  | ledger hs _ hknown records =>
    cases hscope
    rw [(hr.ledger hs hknown records).receivedBlobs] at hhash
    exact .inl ⟨_, hs, hhash⟩
  | receivedBlob hs _ other =>
    cases hscope
    rw [ExtTreeSet.mem_insert, Std.LawfulEqCmp.compare_eq_iff_eq] at hhash
    rcases hhash with rfl | hold
    · exact .inr ⟨_, rfl⟩
    · exact .inl ⟨_, hs, hold⟩
  | select hs _ hselected _ =>
    cases hscope
    obtain ⟨now, rfl⟩ := hselected
    exact .inl ⟨_, hs, hhash⟩
  | _ => exact .inl h

omit [ScopeJson] [ContentSchema Op] in
lemma Path.entered (hr : Consistent r) (hpath : Path allowed r r') {hash : Digest}
    (h : ReceivedHash r' hash) :
    ReceivedHash r hash ∨ ∃ revision, allowed (.publish revision hash) := by
  induction hpath with
  | refl => exact .inl h
  | @tail r₁ r₂ hpath hstep ih =>
    obtain ⟨kind, hkind, hstep⟩ := hstep
    have hpath : Path allowed r r₁ := hpath
    rcases hstep.entered (hpath.preserves hr).1 h with hold | ⟨revision, rfl⟩
    · exact ih hold
    · rcases hkind with hkeep | hallowed
      · cases hkeep
      · exact .inr ⟨revision, hallowed⟩

/-! ## What a session holds -/

/-- The answering side offers exported records, and sends content that may be sent. -/
structure GuardedSource (r : Root) (source : Source) : Prop where
  offered : ∀ snapshot, source.snapshot = some snapshot → ∀ key bytes,
    snapshot.record key = some bytes →
      Exported r key bytes ∧ (key ∈ snapshot.received ∨ Shared r key bytes)
  blobs : ∀ snapshot, source.snapshot = some snapshot → ∀ hash ∈ snapshot.receivedBlobs,
    ReceivedHash r hash
  active : ∀ object bytes next hash, source.active = some (object, bytes, next) →
    object.blob = some hash → Sendable r object.record hash

/-- The local snapshot knows which records were received. -/
structure GuardedLocal (r : Root) (snapshot : Snapshot) : Prop where
  known : ∀ key bytes, snapshot.record key = some bytes →
    key ∈ snapshot.received ∨ Shared r key bytes
  received : ∀ key ∈ snapshot.received, ReceivedKey r key
  blobs : ∀ hash ∈ snapshot.receivedBlobs, ReceivedHash r hash

/-- What is being received was sent by the peer. -/
structure GuardedPull (received : List Message) (pull : Pull) : Prop where
  download : ∀ download, pull.download = some download → Given received download.bytes
  staged : ∀ record ∈ pull.staged, Given received record.2

/-- Every hash that entered the ledger of received content is shared by a record of this device, or
was supplied. -/
def Entered (r₀ : Root) (received : List Message) (r : Root) : Prop :=
  ∀ hash, ReceivedHash r hash →
    ReceivedHash r₀ hash ∨ Referenced r hash ∨ Supplied received hash

/-- What a session holds is in order. -/
structure Guarded (r : Root) (s : Session Workspace) : Prop where
  source : GuardedSource r s.source
  known : GuardedLocal r s.localSnapshot

omit [ScopeJson] in
lemma GuardedSource.mono {source : Source} (h : GuardedSource r source) (hr : Consistent r)
    (hpath : Path Fixed r r') : GuardedSource r' source := by
  refine ⟨?_, ?_, ?_⟩
  · intro snapshot hsnapshot key bytes hrecord
    obtain ⟨hexported, hshared⟩ := h.offered snapshot hsnapshot key bytes hrecord
    exact ⟨(hpath.exported hr hexported).1, hshared.imp_right (hpath.shared hr)⟩
  · intro snapshot hsnapshot hash hhash
    exact hpath.receivedHash hr (h.blobs snapshot hsnapshot hash hhash)
  · intro object bytes next hash hactive hblob
    exact hpath.sendable hr (h.active object bytes next hash hactive hblob)

omit [ScopeJson] [ContentSchema Op] in
lemma GuardedLocal.mono {snapshot : Snapshot} (h : GuardedLocal r snapshot) (hr : Consistent r)
    (hpath : Path Fixed r r') : GuardedLocal r' snapshot := by
  refine ⟨?_, ?_, ?_⟩
  · intro key bytes hrecord
    exact (h.known key bytes hrecord).imp_right (hpath.shared hr)
  · intro key hkey
    exact (hpath.preserves hr).2.received (h.received key hkey)
  · intro hash hhash
    exact hpath.receivedHash hr (h.blobs hash hhash)

omit [Schema Op] [Blake3] [Checksum] [ScopeJson] [ContentSchema Op] in
lemma GuardedPull.mono {received : List Message} {pull : Pull} (h : GuardedPull received pull)
    (later : List Message) : GuardedPull (received ++ later) pull :=
  ⟨fun download hdownload => (h.download download hdownload).mono later,
    fun record hrecord => (h.staged record hrecord).mono later⟩

omit [ScopeJson] in
lemma Guarded.mono {s : Session Workspace} (h : Guarded r s) (hr : Consistent r)
    (hpath : Path Fixed r r') : Guarded r' s :=
  ⟨h.source.mono hr hpath, h.known.mono hr hpath⟩

omit [ScopeJson] [ContentSchema Op] in
lemma distinct_of_path {received : List Message} (h : Distinct received r'.chain)
    (hr : Consistent r) (hpath : Path allowed r r') : Distinct received r.chain := by
  intro bytes hgiven o ho
  exact h bytes hgiven o ((hpath.preserves hr).2.history.subset ho)

omit [ScopeJson] [ContentSchema Op] in
lemma distinct_of_append {received later : List Message} {d : Directory}
    (h : Distinct (received ++ later) d) : Distinct received d :=
  fun bytes hgiven => h bytes (hgiven.mono later)

omit [ScopeJson] [ContentSchema Op] in
/-- The ledgers of a snapshot are those on file. -/
lemma Frozen.ledgers {receiving : Bool} {snapshot : Snapshot} {w : Workspace}
    (h : Frozen receiving snapshot w) :
    (∀ key, key ∈ snapshot.received ↔ ReceivedKey w.root key)
      ∧ ∀ hash ∈ snapshot.receivedBlobs, ReceivedHash w.root hash := by
  obtain ⟨scope, known, hforce, -, hreceived, hblobs, -, -⟩ := h.shared
  refine ⟨fun key => ?_, fun hash hhash => ?_⟩
  · rw [hreceived]
    constructor
    · exact fun hkey => ⟨scope, hforce.file, hkey⟩
    · rintro ⟨other, hother, hkey⟩
      rw [hforce.file] at hother
      cases hother
      exact hkey
  · rw [hblobs] at hhash
    exact ⟨scope, hforce.file, hhash⟩

omit [ScopeJson] [ContentSchema Op] in
lemma guardedLocal_of_frozen {snapshot : Snapshot} {w : Workspace} (h : Frozen true snapshot w) :
    GuardedLocal w.root snapshot := by
  obtain ⟨hreceived, hblobs⟩ := h.ledgers
  refine ⟨?_, fun key hkey => (hreceived key).mp hkey, hblobs⟩
  intro key bytes hrecord
  obtain ⟨scope, record, hscope, hfirst, hbytes, hpermits⟩ := h.record_iff.mp hrecord
  by_cases hin : key ∈ snapshot.received
  · exact .inl hin
  · rcases hpermits with hexcludes | ⟨-, hkey⟩
    · exact .inr ⟨⟨scope, record, hscope, hfirst, hbytes, hexcludes⟩,
        fun hledger => hin ((hreceived key).mpr hledger)⟩
    · exact absurd ((hreceived key).mpr ⟨scope, hscope, hkey⟩) hin

/-! ## States of a turn -/

/-- A state within a turn that began with some files. -/
structure Tracked (r₀ : Root) (revision : ℕ) (received : List Message) (s : Session Workspace) :
    Prop where
  sound : Sound s.replica
  consistent : Consistent s.replica.root
  path : Path Fixed r₀ s.replica.root
  revision : s.replica.replica.scopeRevision = revision
  pull : GuardedPull received s.pull
  secure : Distinct received s.replica.root.chain →
    Guarded s.replica.root s ∧ Entered r₀ received s.replica.root

variable {r₀ : Root} {revision : ℕ} {received : List Message} {s t : Session Workspace}

omit [ScopeJson] in
/-- Only the progress, or what is being received, changed. -/
lemma Tracked.frame (h : Tracked r₀ revision received s) (hreplica : t.replica = s.replica)
    (hsource : t.source = s.source) (hlocal : t.localSnapshot = s.localSnapshot)
    (hpull : GuardedPull received s.pull → GuardedPull received t.pull) :
    Tracked r₀ revision received t := by
  refine ⟨by rw [hreplica]; exact h.sound, by rw [hreplica]; exact h.consistent,
    by rw [hreplica]; exact h.path, by rw [hreplica]; exact h.revision, hpull h.pull, ?_⟩
  rw [hreplica]
  intro hdistinct
  obtain ⟨hguarded, hentered⟩ := h.secure hdistinct
  exact ⟨⟨by rw [hsource]; exact hguarded.source, by rw [hlocal]; exact hguarded.known⟩, hentered⟩

omit [ScopeJson] in
/-- One more message was received. -/
lemma Tracked.later (h : Tracked r₀ revision received s) (later : List Message) :
    Tracked r₀ revision (received ++ later) s := by
  refine ⟨h.sound, h.consistent, h.path, h.revision, h.pull.mono later, fun hdistinct => ?_⟩
  obtain ⟨hguarded, hentered⟩ := h.secure (distinct_of_append hdistinct)
  refine ⟨hguarded, fun hash hhash => ?_⟩
  rcases hentered hash hhash with hold | hreferenced | ⟨bytes, hgiven, hbytes⟩
  · exact .inl hold
  · exact .inr (.inl hreferenced)
  · exact .inr (.inr ⟨bytes, hgiven.mono later, hbytes⟩)

omit [ScopeJson] in
/-- The storage was called. -/
lemma Tracked.storage (h : Tracked r₀ revision received s) {w : Workspace}
    (hrests : Rests allowed s.replica w) (hkinds : ∀ kind, allowed kind → Fixed kind)
    (hpublished : Distinct received w.root.chain → Guarded s.replica.root s →
      ∀ rev hash, allowed (.publish rev hash) →
        ReceivedHash s.replica.root hash ∨ Referenced w.root hash ∨ Supplied received hash) :
    Tracked r₀ revision received { s with replica := w } := by
  have hpath : Path Fixed s.replica.root w.root := hrests.path.mono hkinds
  refine ⟨⟨hrests.holds, hrests.unlocked, hrests.follows⟩, (hpath.preserves h.consistent).1,
    h.path.trans hpath, hrests.revision.trans h.revision, h.pull, fun hdistinct => ?_⟩
  have hbefore : Distinct received s.replica.root.chain := distinct_of_path hdistinct h.consistent hpath
  obtain ⟨hguarded, hentered⟩ := h.secure hbefore
  refine ⟨⟨hguarded.source.mono h.consistent hpath, hguarded.known.mono h.consistent hpath⟩,
    fun hash hhash => ?_⟩
  have hold : ReceivedHash s.replica.root hash →
      ReceivedHash r₀ hash ∨ Referenced w.root hash ∨ Supplied received hash := by
    intro hreceived
    rcases hentered hash hreceived with hstart | ⟨key, bytes, hshared, hreferences⟩ | hsupplied
    · exact .inl hstart
    · exact .inr (.inl ⟨key, bytes, hpath.shared h.consistent hshared, hreferences⟩)
    · exact .inr (.inr hsupplied)
  rcases hrests.path.entered h.consistent hhash with hreceived | ⟨rev, hallowed⟩
  · exact hold hreceived
  · rcases hpublished hdistinct hguarded rev hash hallowed with hreceived | hnew
    · exact hold hreceived
    · exact .inr hnew

omit [ScopeJson] in
/-- The storage was called, and nothing was written. -/
lemma Tracked.calm (h : Tracked r₀ revision received s) {w : Workspace}
    (hcalm : Calm s.replica w) : Tracked r₀ revision received { s with replica := w } := by
  have hrests : Rests Idle s.replica w := h.sound.rests hcalm
  exact h.storage hrests (fun _ hnone => hnone.elim) fun _ _ _ _ hnone => hnone.elim

/-! ## Storage calls -/

/-- No message carries bytes. -/
def Silent (replies : List Message) : Prop := ∀ message ∈ replies, message.carried = none

omit [Schema Op] [Blake3] [Checksum] [ScopeJson] [ContentSchema Op] in
lemma silent_nil : Silent [] := by
  intro message hmessage
  cases hmessage

omit [Schema Op] [Blake3] [Checksum] [ScopeJson] [ContentSchema Op] in
lemma Silent.append {replies more : List Message} (h : Silent replies) (hmore : Silent more) :
    Silent (replies ++ more) := by
  intro message hmessage
  rcases List.mem_append.mp hmessage with hold | hnew
  · exact h message hold
  · exact hmore message hnew

omit [Schema Op] [Blake3] [Checksum] [ScopeJson] [ContentSchema Op] in
lemma silent_singleton {message : Message} (h : message.carried = none) : Silent [message] := by
  intro other hother
  rw [List.mem_singleton.mp hother]
  exact h

omit [Checksum] [ScopeJson] [ContentSchema Op] in
/-- Call the storage. -/
lemma wp_onReplica {α : Type} {m : Fallible IoError Workspace α}
    {ok : α → Session Workspace → Prop} {err : IoError → Session Workspace → Prop} :
    wp (Session.onReplica m) ok err s
      ↔ wp m (fun a w => ok a { s with replica := w }) (fun e w => err e { s with replica := w })
        s.replica := wp_zoom

lemma wp_trackedScope (h : Tracked r₀ revision received s) :
    wp (Session.onReplica (ReplicationStorage.ensureScope (R := Workspace)))
      (fun _ t => Tracked r₀ revision received t ∧ t.pull = s.pull ∧ t.progress = s.progress)
      (fun _ t => Tracked r₀ revision received t) s := by
  rw [wp_onReplica]
  apply wp_mono wp_ensureScope
  · intro _ w hw
    exact ⟨h.calm hw.1, rfl, rfl⟩
  · intro _ w hcalm
    exact h.calm hcalm

omit [Checksum] [ScopeJson] [ContentSchema Op] in
lemma digest_of_fromEncoded {bytes : Bytes} {key : RecordKey}
    (h : RecordKey.fromEncoded bytes = .ok key) : key.digest = Blake3.hash bytes := by
  unfold RecordKey.fromEncoded at h
  obtain ⟨-, h⟩ := guard_eq_ok.mp h
  obtain ⟨op, -, h⟩ := bind_eq_ok.mp h
  rw [← pure_eq_ok.mp h]

omit [ScopeJson] [ContentSchema Op] in
/-- A receipt keeps the local snapshot in order. -/
lemma GuardedLocal.receipt {w w' : Workspace} {records : List (RecordKey × Bytes)}
    {snapshot : Snapshot} {result : Scope} (h : GuardedLocal w.root snapshot)
    (hr : Consistent w.root) (hpath : Path Fixed w.root w'.root)
    (hreceipted : Receipted w records (some snapshot) result w')
    (hgiven : ∀ record ∈ records, Given received record.2)
    (hdistinct : Distinct received w.root.chain) :
    GuardedLocal w'.root (receivedInto records result snapshot) := by
  obtain ⟨final, hfinal, hreceived, hblobs⟩ := hreceipted.ledger
  have hledger : ∀ key, key ∈ result.received ↔ ReceivedKey w'.root key := by
    intro key
    rw [hreceived key]
    constructor
    · exact fun hkey => ⟨final, hfinal, hkey⟩
    · rintro ⟨scope, hscope, hkey⟩
      rw [hfinal] at hscope
      cases hscope
      exact hkey
  refine ⟨?_, ?_, ?_⟩
  · intro key bytes hrecord
    show key ∈ result.received ∨ _
    rcases record_receivedInto hrecord with hold | ⟨hmem, hderived⟩
    · rcases h.known key bytes hold with hin | hshared
      · exact .inl ((hledger key).mpr ((hpath.preserves hr).2.received (h.received key hin)))
      · exact .inr (hpath.shared hr hshared)
    · rcases hreceipted.placed (key, bytes) hmem with hin | ⟨scope, record, hscope, hfirst, hexcludes⟩
      · exact .inl hin
      · by_cases hin : key ∈ result.received
        · exact .inl hin
        · -- the bytes are those of the record in the log, since their digests agree
          have hdigest : Blake3.hash bytes = Blake3.hash record.bytes := by
            rw [← digest_of_fromEncoded hderived,
              ← digest_of_fromEncoded (fromEncoded_of_firstOf hfirst)]
          have hsame : bytes = record.bytes := by
            obtain ⟨o, ho, rfl⟩ := Option.map_eq_some_iff.mp hfirst
            exact hdistinct bytes (hgiven (key, bytes) hmem) o (List.mem_of_find?_eq_some ho) hdigest
          have hexported : Exported w.root key bytes :=
            ⟨scope, record, hscope, hfirst, hsame.symm, hexcludes⟩
          exact .inr ⟨(hpath.exported hr hexported).1, fun hkey => hin ((hledger key).mpr hkey)⟩
  · intro key hkey
    exact (hledger key).mp hkey
  · intro hash hhash
    have hin : hash ∈ final.receivedBlobs := by
      rw [← hblobs]
      exact hhash
    exact ⟨final, hfinal, hin⟩

/-! ## The pulling side -/

omit [Schema Op] [Blake3] [Checksum] [ScopeJson] [ContentSchema Op] in
lemma fixed_ingest (rev : ℕ) : Fixed (.ingest rev) :=
  ⟨fun hne => (by cases hne), fun _ hne => (by cases hne)⟩

omit [Schema Op] [Blake3] [Checksum] [ScopeJson] [ContentSchema Op] in
lemma fixed_publish (rev : ℕ) (hash : Digest) : Fixed (.publish rev hash) :=
  ⟨fun hne => (by cases hne), fun _ hne => (by cases hne)⟩

/-- A batch becomes durable, with the local snapshot. -/
lemma wp_trackedIngest (h : Tracked r₀ revision received s) (records : List (RecordKey × Bytes))
    (hgiven : ∀ record ∈ records, Given received record.2) :
    wp (Session.onLocal (ReplicationStorage.ingestRecords (R := Workspace) records))
      (fun _ t => Tracked r₀ revision received t) (fun _ t => Tracked r₀ revision received t) s := by
  have hrun := wp_ingestInto h.sound h.consistent.retains records (some s.localSnapshot)
  have hkinds : ∀ kind, Ingesting s.replica.replica.scopeRevision (some s.localSnapshot) kind →
      Fixed kind := by
    rintro kind ⟨rfl, -⟩
    exact fixed_ingest _
  have hstored : ∀ w, Rests (Ingesting s.replica.replica.scopeRevision (some s.localSnapshot))
      s.replica w → Tracked r₀ revision received { s with replica := w } := by
    intro w hrests
    exact h.storage hrests hkinds fun _ _ _ _ hnone => (by cases hnone.1)
  unfold Session.onLocal
  rw [wp_zoom]
  unfold wp at hrun ⊢
  simp only [ReplicationStorage.ingestRecords, exec_of]
  cases hexec : (ingestInto records (some s.localSnapshot)).exec s.replica with
  | mk result w =>
    rw [hexec] at hrun
    cases result with
    | error e => exact hstored w hrun
    | ok scope =>
      obtain ⟨hrests, hreceipted⟩ := hrun
      have htracked := hstored w hrests
      refine ⟨htracked.sound, htracked.consistent, htracked.path, htracked.revision, h.pull,
        fun hdistinct => ?_⟩
      obtain ⟨hguarded, hentered⟩ := htracked.secure hdistinct
      have hpath : Path Fixed s.replica.root w.root := hrests.path.mono hkinds
      have hbefore := distinct_of_path hdistinct h.consistent hpath
      obtain ⟨hguarded₀, -⟩ := h.secure hbefore
      exact ⟨⟨hguarded.source,
        hguarded₀.known.receipt h.consistent hpath hreceipted hgiven hbefore⟩, hentered⟩

lemma wp_trackedFlush (h : Tracked r₀ revision received s) {replies : List Message}
    (hsilent : Silent replies) :
    wp (Session.flush (R := Workspace) replies)
      (fun more t => Tracked r₀ revision received t ∧ Silent more)
      (fun _ t => Tracked r₀ revision received t) s := by
  unfold Session.flush
  rw [wp_bind, wp_get, wp_ite]
  refine ⟨fun _ => ⟨h, hsilent⟩, fun _ => ?_⟩
  rw [wp_bind]
  apply wp_mono (wp_trackedIngest h s.pull.staged h.pull.staged) _ fun _ _ ht => ht
  intro _ t ht
  rw [wp_bind, wp_modify, wp_pure]
  refine ⟨?_, hsilent.append ?_⟩
  · apply Tracked.frame (t := t.flushed) ht rfl rfl rfl
    intro hpull
    exact ⟨hpull.download, fun record hrecord => (by cases hrecord)⟩
  · intro message hmessage
    obtain ⟨record, -, rfl⟩ := List.mem_map.mp hmessage
    rfl

lemma wp_trackedFlushIf (h : Tracked r₀ revision received s) (limit : Prop) [Decidable limit]
    {replies : List Message} (hsilent : Silent replies) :
    wp (Session.flushIf (R := Workspace) limit replies)
      (fun more t => Tracked r₀ revision received t ∧ Silent more)
      (fun _ t => Tracked r₀ revision received t) s := by
  unfold Session.flushIf
  rw [wp_ite]
  exact ⟨fun _ => wp_trackedFlush h hsilent, fun _ => ⟨h, hsilent⟩⟩

/-- Received content becomes durable. -/
lemma wp_trackedBlob (h : Tracked r₀ revision received s) {download : Download} {hash : Digest}
    (hgiven : Given received download.bytes) {replies : List Message} (hsilent : Silent replies) :
    wp (Session.completeBlob (R := Workspace) download hash replies)
      (fun more t => Tracked r₀ revision received t ∧ Silent more)
      (fun _ t => Tracked r₀ revision received t) s := by
  have hkinds : ∀ kind, Publishing s.replica.replica.scopeRevision hash kind → Fixed kind := by
    rintro kind rfl
    exact fixed_publish _ _
  unfold Session.completeBlob
  rw [wp_bind, wp_onReplica]
  apply wp_mono (wp_ingestBlob h.sound download.object.record hash download.bytes)
  · rintro _ w ⟨hrests, hhash, -, hledger⟩
    have htracked : Tracked r₀ revision received { s with replica := w } := by
      apply h.storage hrests hkinds
      rintro - - rev other hother
      cases hother
      exact .inr (.inr ⟨download.bytes, hgiven, hhash⟩)
    rw [wp_bind, wp_modify, wp_pure]
    refine ⟨⟨htracked.sound, htracked.consistent, htracked.path, htracked.revision, h.pull,
      fun hdistinct => ?_⟩, hsilent.append (silent_singleton rfl)⟩
    obtain ⟨hguarded, hentered⟩ := htracked.secure hdistinct
    refine ⟨⟨hguarded.source, ⟨hguarded.known.known, hguarded.known.received, ?_⟩⟩, hentered⟩
    intro other hother
    have hinsert : other ∈ s.localSnapshot.receivedBlobs.insert hash := hother
    rw [ExtTreeSet.mem_insert, Std.LawfulEqCmp.compare_eq_iff_eq] at hinsert
    rcases hinsert with rfl | hold
    · exact hledger
    · exact hguarded.known.blobs other hold
  · rintro _ w ⟨hrests, hhash | hcalm⟩
    · apply h.storage hrests hkinds
      rintro - - rev other hother
      cases hother
      exact .inr (.inr ⟨download.bytes, hgiven, hhash⟩)
    · exact h.calm hcalm

lemma wp_trackedRecord (h : Tracked r₀ revision received s) {download : Download}
    (hgiven : Given received download.bytes) {replies : List Message} (hsilent : Silent replies) :
    wp (Session.completeRecord (R := Workspace) download replies)
      (fun more t => Tracked r₀ revision received t ∧ Silent more)
      (fun _ t => Tracked r₀ revision received t) s := by
  unfold Session.completeRecord
  rw [wp_bind, wp_lift]
  refine ⟨fun key _ => ?_, fun _ _ => h⟩
  rw [wp_guard]
  refine ⟨fun _ => h, fun _ => ?_⟩
  rw [wp_bind, wp_get, wp_bind]
  apply wp_mono (wp_trackedFlushIf h _ hsilent) _ fun _ _ ht => ht
  rintro more t ⟨ht, hmore⟩
  rw [wp_bind, wp_modify, wp_bind, wp_get]
  apply wp_trackedFlushIf _ _ hmore
  apply Tracked.frame (t := t.stage download.object.record download.bytes) ht rfl rfl rfl
  intro hpull
  refine ⟨hpull.download, fun record hrecord => ?_⟩
  have hstaged : record ∈ t.pull.staged ++ [(download.object.record, download.bytes)] := hrecord
  rcases List.mem_append.mp hstaged with hold | hnew
  · exact hpull.staged record hold
  · rw [List.mem_singleton.mp hnew]
    exact hgiven

omit [ScopeJson] in
/-- Taking the finished download leaves the rest in order. -/
lemma Tracked.takeDownload (h : Tracked r₀ revision received s) :
    Tracked r₀ revision received s.takeDownload := by
  apply Tracked.frame (t := s.takeDownload) h rfl rfl rfl
  intro hpull
  exact ⟨fun download hdownload => (by cases hdownload), hpull.staged⟩

lemma wp_trackedComplete (h : Tracked r₀ revision received s) {replies : List Message}
    (hsilent : Silent replies) :
    wp (Session.complete (R := Workspace) replies)
      (fun more t => Tracked r₀ revision received t ∧ Silent more)
      (fun _ t => Tracked r₀ revision received t) s := by
  unfold Session.complete
  rw [wp_bind, wp_get]
  cases hsome : s.pull.download with
  | none => exact h
  | some download =>
    simp only
    rw [wp_bind, wp_modify]
    cases download.object.blob with
    | some hash => exact wp_trackedBlob h.takeDownload (h.pull.download download hsome) hsilent
    | none => exact wp_trackedRecord h.takeDownload (h.pull.download download hsome) hsilent

/-- Content that is there already is confirmed only if a record of this device shares it, or it was
received before. -/
lemma wp_trackedFind (h : Tracked r₀ revision received s) (key : RecordKey) (hash : Digest) :
    wp (Session.findBlob (R := Workspace) key hash) (fun _ t => Tracked r₀ revision received t)
      (fun _ t => Tracked r₀ revision received t) s := by
  unfold Session.findBlob
  rw [wp_bind, wp_get, wp_ite]
  refine ⟨fun _ => ?_, fun _ => h⟩
  rw [wp_bind, wp_modify]
  set tried : Session Workspace := { s with
    pull := { s.pull with tried := insert ⟨key, some hash⟩ s.pull.tried } } with htried
  have h₁ : Tracked r₀ revision received tried :=
    Tracked.frame h rfl rfl rfl fun hpull => ⟨hpull.download, hpull.staged⟩
  have hkinds : ∀ kind, Confirming tried.replica.replica.scopeRevision s.localSnapshot hash kind →
      Fixed kind := by
    rintro kind ⟨rfl, -⟩
    exact fixed_publish _ _
  have hstored : ∀ w, Rests (Confirming tried.replica.replica.scopeRevision s.localSnapshot hash)
      tried.replica w → ((∃ bytes, Opens s.localSnapshot key hash bytes tried.replica.root)
        ∨ Calm tried.replica w) → Tracked r₀ revision received { tried with replica := w } := by
    rintro w hrests (⟨bytes, hopens⟩ | hcalm)
    · apply h₁.storage hrests hkinds
      rintro - hguarded rev other ⟨hother, -⟩
      cases hother
      obtain ⟨encoded, hrecord, hreferences⟩ := hopens.referenced
      have hpermitted := hopens.permitted
      unfold Snapshot.permitsBlob at hpermitted
      rw [Bool.or_eq_true, Bool.not_eq_true', ExtTreeSet.contains_iff_mem] at hpermitted
      rcases hpermitted with hfresh | hin
      · rcases hguarded.known.known key encoded hrecord with hreceived | hshared
        · have hin : s.localSnapshot.received.contains key = true :=
            ExtTreeSet.contains_iff_mem.mpr hreceived
          rw [hin] at hfresh
          cases hfresh
        · have hpath : Path Fixed tried.replica.root w.root := hrests.path.mono hkinds
          exact .inr (.inl ⟨key, encoded, hpath.shared h₁.consistent hshared, hreferences⟩)
      · exact .inl (hguarded.known.blobs hash hin)
    · exact h₁.calm hcalm
  rw [wp_bind, wp_onReplica]
  apply wp_mono (wp_confirmBlob h₁.sound s.localSnapshot key hash)
  · rintro available w ⟨hrests, -, -, hcause⟩
    have ht := hstored w hrests hcause
    rw [wp_ite]
    refine ⟨fun _ => ?_, fun _ => ht⟩
    rw [wp_modify]
    exact Tracked.frame ht rfl rfl rfl fun hpull => ⟨hpull.download, hpull.staged⟩
  · rintro _ w ⟨hrests, hcause⟩
    exact hstored w hrests hcause

lemma wp_trackedKey (h : Tracked r₀ revision received s) (key : RecordKey) :
    wp (Session.findKey (R := Workspace) key) (fun _ t => Tracked r₀ revision received t)
      (fun _ t => Tracked r₀ revision received t) s := by
  unfold Session.findKey
  rw [wp_bind, wp_get, wp_bind, wp_onReplica]
  apply wp_mono (wp_blobHashes s.localSnapshot key) _ fun _ w hcalm => h.calm hcalm
  intro hashes w hw
  have ht := h.calm hw.1
  rw [wp_guard]
  refine ⟨fun _ => ht, fun _ => ?_⟩
  exact wp_forM hashes.toList (fun _ t => Tracked r₀ revision received t)
    (fun _ hash t _ ht => wp_trackedFind ht key hash) ht

lemma wp_trackedSearch (h : Tracked r₀ revision received s) :
    wp (Session.searchBlobs (R := Workspace)) (fun _ t => Tracked r₀ revision received t)
      (fun _ t => Tracked r₀ revision received t) s := by
  unfold Session.searchBlobs
  rw [wp_bind, wp_get, wp_ite]
  refine ⟨fun _ => ?_, fun _ => h⟩
  unfold Session.findBlobs
  rw [wp_bind, wp_get]
  exact wp_forM s.pull.keys (fun _ t => Tracked r₀ revision received t)
    (fun _ key t _ ht => wp_trackedKey ht key) h

omit [Schema Op] [Blake3] [Checksum] [ScopeJson] [ContentSchema Op] in
lemma carried_need {object : Object} {offset : ℕ} {message : Message}
    (h : object.need offset = .ok message) : message.carried = none := by
  unfold Object.need at h
  split at h
  · cases h
  · cases h
    rfl

omit [ScopeJson] in
lemma wp_trackedDownload (h : Tracked r₀ revision received s) (object : Object)
    {replies : List Message} (hsilent : Silent replies) :
    wp (Session.download (R := Workspace) object replies)
      (fun more t => Tracked r₀ revision received t ∧ Silent more)
      (fun _ t => Tracked r₀ revision received t) s := by
  unfold Session.download
  rw [wp_bind, wp_lift]
  refine ⟨fun request hrequest => ?_, fun _ _ => h⟩
  rw [wp_bind, wp_modify, wp_pure]
  refine ⟨?_, hsilent.append (silent_singleton (carried_need hrequest))⟩
  apply Tracked.frame (t := s.downloading object) h rfl rfl rfl
  intro hpull
  refine ⟨fun download hdownload => ?_, hpull.staged⟩
  rw [← Option.some.inj hdownload]
  exact given_nil received

omit [ScopeJson] in
lemma wp_trackedFinish (h : Tracked r₀ revision received s) {replies : List Message}
    (hsilent : Silent replies) :
    wp (Session.finishPage (R := Workspace) replies)
      (fun more t => Tracked r₀ revision received t ∧ Silent more)
      (fun _ t => Tracked r₀ revision received t) s := by
  have hsame : ∀ {t : Session Workspace}, t.replica = s.replica → t.source = s.source →
      t.localSnapshot = s.localSnapshot → t.pull.download = s.pull.download →
      t.pull.staged = s.pull.staged → Tracked r₀ revision received t := by
    intro t hreplica hsource hlocal hdownload hstaged
    apply h.frame hreplica hsource hlocal
    intro hpull
    refine ⟨?_, ?_⟩
    · rw [hdownload]
      exact hpull.download
    · rw [hstaged]
      exact hpull.staged
  unfold Session.finishPage
  rw [wp_bind, wp_modify, wp_bind, wp_get, wp_ite]
  refine ⟨fun _ => ?_, fun _ => ?_⟩
  · rw [wp_bind, wp_modify, wp_pure]
    exact ⟨hsame rfl rfl rfl rfl rfl,
      (hsilent.append (silent_singleton rfl)).append (silent_singleton rfl)⟩
  · rw [wp_bind, wp_modify, wp_pure]
    exact ⟨hsame rfl rfl rfl rfl rfl, hsilent.append (silent_singleton rfl)⟩

lemma wp_trackedAdvance (h : Tracked r₀ revision received s) {replies : List Message}
    (hsilent : Silent replies) :
    wp (Session.advance (R := Workspace) replies)
      (fun more t => Tracked r₀ revision received t ∧ Silent more)
      (fun _ t => Tracked r₀ revision received t) s := by
  unfold Session.advance
  rw [wp_bind, wp_get]
  cases s.pull.records with
  | cons record rest =>
    simp only
    rw [wp_bind, wp_modify]
    apply wp_trackedDownload _ _ hsilent
    exact Tracked.frame h rfl rfl rfl fun hpull => ⟨hpull.download, hpull.staged⟩
  | nil =>
    simp only
    rw [wp_bind]
    apply wp_mono (wp_trackedFlush h hsilent) _ fun _ _ ht => ht
    rintro more t ⟨ht, hmore⟩
    rw [wp_bind]
    apply wp_mono (wp_trackedSearch ht) _ fun _ _ hu => hu
    intro _ u hu
    rw [wp_bind, wp_get]
    cases u.pull.blobs with
    | nil => exact wp_trackedFinish hu hmore
    | cons object rest =>
      simp only
      rw [wp_bind, wp_modify]
      apply wp_trackedDownload _ _ hmore
      exact Tracked.frame hu rfl rfl rfl fun hpull => ⟨hpull.download, hpull.staged⟩

omit [ScopeJson] in
lemma wp_trackedPage (h : Tracked r₀ revision received s) (offset total : ℕ)
    (records : List RecordKey) (more : Bool) :
    wp (Session.page (R := Workspace) offset total records more)
      (fun _ t => Tracked r₀ revision received t) (fun _ t => Tracked r₀ revision received t) s := by
  unfold Session.page
  rw [wp_bind, wp_get, wp_guard]
  refine ⟨fun _ => h, fun _ => ?_⟩
  rw [wp_guard]
  refine ⟨fun _ => h, fun _ => ?_⟩
  rw [wp_guard]
  refine ⟨fun _ => h, fun _ => ?_⟩
  rw [wp_guard]
  refine ⟨fun _ => h, fun _ => ?_⟩
  rw [wp_modify]
  exact Tracked.frame h rfl rfl rfl fun hpull => ⟨hpull.download, hpull.staged⟩

omit [Schema Op] [Blake3] [Checksum] [ScopeJson] [ContentSchema Op] in
lemma append_bytes {object : Object} {offset total : ℕ} {bytes : Bytes} {download : Download}
    {done : Bool}
    (h : ((Download.append object offset total bytes).exec download).1 = .ok done) :
    ((Download.append object offset total bytes).exec download).2.bytes
      = download.bytes ++ bytes := by
  unfold Download.append at h ⊢
  rw [exec_bind_of_ok (exec_get download)] at h ⊢
  rw [exec_guard] at h ⊢
  split at h
  · cases h
  · next hlength =>
    rw [if_neg hlength, exec_guard]
    rw [exec_guard] at h
    split at h
    · cases h
    · next hexpected =>
      rw [if_neg hexpected]
      rfl

/-- A chunk is the next part of what the peer supplies. -/
lemma wp_trackedChunk (h : Tracked r₀ revision received s) (object : Object) (offset total : ℕ)
    (bytes : Bytes) :
    wp (Session.chunk (R := Workspace) object offset total bytes)
      (fun more t => Tracked r₀ revision
        (received ++ [.chunk object.record object.blob offset total bytes]) t ∧ Silent more)
      (fun _ t => Tracked r₀ revision
        (received ++ [.chunk object.record object.blob offset total bytes]) t) s := by
  set message : Message := .chunk object.record object.blob offset total bytes with hmessage
  unfold Session.chunk
  rw [wp_bind, wp_get]
  cases hdownload : s.pull.download with
  | none => exact h.later _
  | some download =>
    simp only
    rw [wp_bind, wp_lift]
    refine ⟨fun done hdone => ?_, fun _ _ => h.later _⟩
    set appended := ((Download.append object offset total bytes).exec download).2 with happended
    have hgiven : Given (received ++ [message]) appended.bytes := by
      have hbytes : appended.bytes = download.bytes ++ bytes := append_bytes hdone
      rw [hbytes]
      exact (h.pull.download download hdownload).chunk rfl
    have ht : Tracked r₀ revision (received ++ [message])
        { s with pull := { s.pull with download := some appended } } := by
      refine Tracked.frame (h.later [message]) rfl rfl rfl fun hpull =>
        ⟨fun other hother => ?_, hpull.staged⟩
      rw [← Option.some.inj hother]
      exact hgiven
    rw [wp_bind, wp_modify, wp_ite]
    refine ⟨fun _ => ?_, fun _ => ?_⟩
    · rw [wp_bind]
      apply wp_mono (wp_trackedComplete ht silent_nil) _ fun _ _ hu => hu
      rintro replies u ⟨hu, hreplies⟩
      exact wp_trackedAdvance hu hreplies
    · rw [wp_bind, wp_lift]
      refine ⟨fun request hrequest => ?_, fun _ _ => ht⟩
      exact ⟨ht, silent_singleton (carried_need hrequest)⟩

lemma wp_trackedMissing (h : Tracked r₀ revision received s) (object : Object) :
    wp (Session.missing (R := Workspace) object)
      (fun more t => Tracked r₀ revision received t ∧ Silent more)
      (fun _ t => Tracked r₀ revision received t) s := by
  unfold Session.missing
  rw [wp_bind, wp_get]
  cases s.pull.download with
  | none => exact h
  | some download =>
    simp only
    rw [wp_bind, wp_modify, wp_guard]
    refine ⟨fun _ => h.takeDownload, fun _ => ?_⟩
    rw [wp_bind, wp_modify]
    apply wp_trackedAdvance _ silent_nil
    exact Tracked.frame h.takeDownload rfl rfl rfl fun hpull => ⟨hpull.download, hpull.staged⟩

/-- A round starts from what the scope in force shares or the ledger lists. -/
lemma wp_trackedRound (h : Tracked r₀ revision received s) :
    wp (Session.startRound (R := Workspace))
      (fun more t => Tracked r₀ revision received t ∧ Silent more)
      (fun _ t => Tracked r₀ revision received t) s := by
  unfold Session.startRound
  rw [wp_bind]
  apply wp_mono (wp_trackedScope h) _ fun _ _ ht => ht
  rintro _ t ⟨ht, -, -⟩
  rw [wp_bind, wp_get, wp_ite]
  refine ⟨fun _ => ⟨ht, silent_nil⟩, fun _ => ?_⟩
  rw [wp_bind, wp_onReplica]
  have hkinds : ∀ kind, Idle kind → Fixed kind := fun _ hnone => hnone.elim
  apply wp_mono (wp_snapshotFor ht.sound true)
  swap
  · intro _ w hrests
    exact ht.storage hrests hkinds fun _ _ _ _ hnone => hnone.elim
  rintro snapshot w ⟨hrests, hfrozen⟩
  have hw : Tracked r₀ revision received { t with replica := w } :=
    ht.storage hrests hkinds fun _ _ _ _ hnone => hnone.elim
  rw [wp_bind, wp_modify, wp_pure]
  refine ⟨⟨hw.sound, hw.consistent, hw.path, hw.revision, ?_, fun hdistinct => ?_⟩,
    silent_singleton rfl⟩
  · exact ⟨fun download hnone => (by cases hnone), fun record hnone => (by cases hnone)⟩
  · obtain ⟨hguarded, hentered⟩ := hw.secure hdistinct
    exact ⟨⟨hguarded.source, guardedLocal_of_frozen hfrozen⟩, hentered⟩

/-! ## The answering side -/

/-- The session with a source and a storage in their places. -/
def placed (s : Session Workspace) (p : Source × Workspace) : Session Workspace :=
  { s with source := p.1, replica := p.2 }

omit [ScopeJson] in
/-- The source changed without a call to the storage. -/
lemma Tracked.source {p : Source × Workspace} (h : Tracked r₀ revision received (placed s p))
    {source : Source}
    (hsource : GuardedSource p.2.root p.1 → GuardedSource p.2.root source) :
    Tracked r₀ revision received (placed s (source, p.2)) := by
  refine ⟨h.sound, h.consistent, h.path, h.revision, h.pull, fun hdistinct => ?_⟩
  obtain ⟨hguarded, hentered⟩ := h.secure hdistinct
  exact ⟨⟨hsource hguarded.source, hguarded.known⟩, hentered⟩

/-- An answer with content is one that may be given. -/
def Answers (r : Root) (object : Object) (offset : ℕ) (message : Message) : Prop :=
  ∀ key hash start total bytes, message = .chunk key (some hash) start total bytes →
    object = ⟨key, some hash⟩ ∧ start = offset ∧ Sendable r key hash

/-- A fresh snapshot offers what the scope in force exports. -/
lemma wp_trackedFreeze {p : Source × Workspace} (h : Tracked r₀ revision received (placed s p)) :
    wp (Source.freeze (R := Workspace)) (fun _ q => Tracked r₀ revision received (placed s q))
      (fun _ q => Tracked r₀ revision received (placed s q)) p := by
  have hkinds : ∀ kind, Idle kind → Fixed kind := fun _ hnone => hnone.elim
  unfold Source.freeze Source.onStorage
  rw [wp_bind, wp_zoom]
  apply wp_mono (wp_snapshotFor h.sound false)
  swap
  · intro _ w hrests
    exact h.storage hrests hkinds fun _ _ _ _ hnone => hnone.elim
  rintro snapshot w ⟨hrests, hfrozen⟩
  have hw : Tracked r₀ revision received (placed s (p.1, w)) :=
    h.storage hrests hkinds fun _ _ _ _ hnone => hnone.elim
  rw [wp_bind, wp_lift]
  refine ⟨fun order _ => ?_, fun _ _ => hw⟩
  unfold Source.onSource
  rw [wp_zoom, wp_modify]
  apply hw.source
  intro hguarded
  obtain ⟨hreceived, hblobs⟩ := hfrozen.ledgers
  refine ⟨?_, ?_, hguarded.active⟩
  · intro other hother key bytes hrecord
    rw [← Option.some.inj hother] at hrecord ⊢
    obtain ⟨scope, record, hscope, hfirst, hbytes, hpermits⟩ := hfrozen.record_iff.mp hrecord
    have hexported : Exported w.root key bytes :=
      ⟨scope, record, hscope, hfirst, hbytes, by simpa using hpermits⟩
    refine ⟨hexported, ?_⟩
    by_cases hin : key ∈ snapshot.received
    · exact .inl hin
    · exact .inr ⟨hexported, fun hledger => hin ((hreceived key).mpr hledger)⟩
  · intro other hother
    rw [← Option.some.inj hother]
    exact hblobs

lemma wp_trackedInventory {p : Source × Workspace}
    (h : Tracked r₀ revision received (placed s p)) (after : Option RecordKey) :
    wp (Source.inventory (R := Workspace) after)
      (fun message q => Tracked r₀ revision received (placed s q) ∧ message.carried = none)
      (fun _ q => Tracked r₀ revision received (placed s q)) p := by
  unfold Source.inventory
  rw [wp_bind, wp_get, wp_guard]
  refine ⟨fun _ => h, fun _ => ?_⟩
  have hlocate : wp (Source.locate (R := Workspace) after)
      (fun _ q => Tracked r₀ revision received (placed s q))
      (fun _ q => Tracked r₀ revision received (placed s q)) p := by
    unfold Source.locate
    rw [wp_bind, wp_get, wp_ite]
    refine ⟨fun _ => wp_trackedFreeze h, fun _ => ?_⟩
    rw [wp_ite]
    exact ⟨fun _ => h, fun _ => h⟩
  rw [wp_bind]
  apply wp_mono hlocate _ fun _ _ hq => hq
  intro _ q hq
  unfold Source.onSource
  rw [wp_bind, wp_get, wp_bind, wp_zoom, wp_set, wp_pure]
  refine ⟨?_, rfl⟩
  apply hq.source
  intro hguarded
  exact ⟨hguarded.offered, hguarded.blobs, hguarded.active⟩

omit [ScopeJson] in
/-- A chunk of the active object. -/
lemma wp_trackedSend {p : Source × Workspace} (h : Tracked r₀ revision received (placed s p))
    (object : Object) (offset : ℕ) :
    wp (Source.onSource (R := Workspace) (Source.sendChunk object offset))
      (fun message q => Tracked r₀ revision received (placed s q)
        ∧ (Distinct received q.2.root.chain → Answers q.2.root object offset message))
      (fun _ q => Tracked r₀ revision received (placed s q)) p := by
  unfold Source.onSource Source.sendChunk
  rw [wp_zoom, wp_bind, wp_get]
  cases hactive : p.1.active with
  | none => exact h
  | some transfer =>
    obtain ⟨active, bytes, next⟩ := transfer
    simp only
    rw [wp_guard]
    refine ⟨fun _ => h, fun hsame => ?_⟩
    rw [wp_guard]
    refine ⟨fun _ => h, fun _ => ?_⟩
    rw [wp_guard]
    refine ⟨fun _ => h, fun _ => ?_⟩
    rw [not_or, not_not, not_not] at hsame
    obtain ⟨rfl, rfl⟩ := hsame
    rw [wp_bind, wp_set, wp_pure]
    refine ⟨?_, fun hdistinct => ?_⟩
    · apply h.source
      intro hguarded
      unfold Source.advanced
      split
      · exact ⟨hguarded.offered, hguarded.blobs, fun _ _ _ _ hnone => (by cases hnone)⟩
      · refine ⟨hguarded.offered, hguarded.blobs, fun object other start hash hsome hblob => ?_⟩
        obtain ⟨rfl, -⟩ := Prod.mk.inj (Option.some.inj hsome)
        exact hguarded.active _ bytes next hash hactive hblob
    · intro key hash start total chunk hmessage
      obtain ⟨hguarded, -⟩ := h.secure hdistinct
      obtain ⟨record, blob⟩ := active
      simp only [Message.chunk.injEq] at hmessage
      obtain ⟨rfl, rfl, rfl, -, -⟩ := hmessage
      exact ⟨rfl, rfl, hguarded.source.active _ bytes next hash hactive rfl⟩

/-- Content is loaded only if it may be sent. -/
lemma wp_trackedLoad {p : Source × Workspace} (h : Tracked r₀ revision received (placed s p))
    (object : Object) :
    wp (Source.load (R := Workspace) object)
      (fun loaded q => Tracked r₀ revision received (placed s q) ∧ q.1 = p.1
        ∧ (Distinct received q.2.root.chain → ∀ bytes hash, loaded = some bytes →
          object.blob = some hash → Sendable q.2.root object.record hash))
      (fun _ q => Tracked r₀ revision received (placed s q)) p := by
  unfold Source.load
  rw [wp_bind, wp_get]
  cases hsnapshot : p.1.snapshot with
  | none => exact h
  | some snapshot =>
    simp only
    cases hrecord : snapshot.record object.record with
    | none => exact h
    | some encoded =>
      simp only
      cases hblob : object.blob with
      | none => exact ⟨h, rfl, fun _ _ _ _ hnone => (by cases hnone)⟩
      | some hash =>
        simp only
        unfold Source.onStorage
        rw [wp_zoom]
        apply wp_mono (wp_readBlob snapshot object.record hash) _ fun _ w hcalm => h.calm hcalm
        rintro loaded w ⟨hcalm, -, -, hopens⟩
        have hw : Tracked r₀ revision received (placed s (p.1, w)) := h.calm hcalm
        refine ⟨hw, rfl, fun hdistinct bytes other hloaded hother => ?_⟩
        cases hother
        obtain ⟨hguarded, -⟩ := hw.secure hdistinct
        obtain ⟨encoded', hrecord', hreferences⟩ := (hopens bytes hloaded).referenced
        obtain ⟨hexported, hshared⟩ :=
          hguarded.source.offered snapshot hsnapshot object.record encoded' hrecord'
        refine ⟨encoded', hexported, hreferences, ?_⟩
        -- the snapshot permits content of unreceived records, and content that was received
        have hpermitted := (hopens bytes hloaded).permitted
        unfold Snapshot.permitsBlob at hpermitted
        rw [Bool.or_eq_true, Bool.not_eq_true', ExtTreeSet.contains_iff_mem] at hpermitted
        rcases hpermitted with hfresh | hin
        · rcases hshared with hreceived | hshared
          · rw [ExtTreeSet.contains_iff_mem.mpr hreceived] at hfresh
            cases hfresh
          · exact .inl hshared.2
        · exact .inr (hguarded.source.blobs snapshot hsnapshot hash hin)

lemma wp_trackedNeed {p : Source × Workspace} (h : Tracked r₀ revision received (placed s p))
    (object : Object) (offset : ℕ) :
    wp (Source.need (R := Workspace) object offset)
      (fun message q => Tracked r₀ revision received (placed s q)
        ∧ (Distinct received q.2.root.chain → Answers q.2.root object offset message))
      (fun _ q => Tracked r₀ revision received (placed s q)) p := by
  unfold Source.need
  rw [wp_bind, wp_get, wp_guard]
  refine ⟨fun _ => h, fun _ => ?_⟩
  rw [wp_ite]
  refine ⟨fun _ => ?_, fun _ => wp_trackedSend h object offset⟩
  rw [wp_guard]
  refine ⟨fun _ => h, fun _ => ?_⟩
  rw [wp_bind]
  apply wp_mono (wp_trackedLoad h object) _ fun _ _ hq => hq
  rintro loaded q ⟨hq, -, hsendable⟩
  cases loaded with
  | none =>
    simp only
    unfold Source.onSource
    rw [wp_bind, wp_zoom, wp_modify, wp_pure]
    refine ⟨hq.source fun hguarded => ⟨hguarded.offered, hguarded.blobs, hguarded.active⟩, ?_⟩
    intro _ key hash start total bytes hmessage
    cases hmessage
  | some bytes =>
    simp only
    have hactive : Tracked r₀ revision received
        (placed s ({ q.1 with active := some (object, bytes, 0) }, q.2)) := by
      refine ⟨hq.sound, hq.consistent, hq.path, hq.revision, hq.pull, fun hdistinct => ?_⟩
      obtain ⟨hguarded, hentered⟩ := hq.secure hdistinct
      refine ⟨⟨⟨hguarded.source.offered, hguarded.source.blobs, ?_⟩, hguarded.known⟩, hentered⟩
      intro other sent next hash hsome hblob
      obtain ⟨rfl, -⟩ := Prod.mk.inj (Option.some.inj hsome)
      exact hsendable hdistinct bytes hash rfl hblob
    rw [wp_bind]
    have hset : wp (Source.onSource (R := Workspace) (modify fun source =>
        { source with active := some (object, bytes, 0) }))
        (fun _ u => u = ({ q.1 with active := some (object, bytes, 0) }, q.2)) (fun _ _ => False)
        q := by
      unfold Source.onSource
      rw [wp_zoom, wp_modify]
    apply wp_mono hset _ fun _ _ hnone => hnone.elim
    rintro _ u rfl
    exact wp_trackedSend hactive object offset

/-! ## Turns -/

/-- The replies to a message: content is sent only for a request that names it. -/
def Replied (r : Root) (received : List Message) (message : Message) (replies : List Message) : Prop :=
  Distinct received r.chain → ∀ key hash start total bytes,
    .chunk key (some hash) start total bytes ∈ replies →
      message = .need key (some hash) start ∧ Sendable r key hash

omit [ScopeJson] in
lemma Silent.replied {r : Root} {message : Message} {replies : List Message} (h : Silent replies) :
    Replied r received message replies := by
  intro _ key hash start total bytes hmem
  have hcarried := h _ hmem
  cases hcarried

omit [ScopeJson] in
/-- A confirmation of the peer changes neither the offer nor the transfer. -/
lemma wp_trackedConfirmation (h : Tracked r₀ revision received s) {m : Fallible IoError Source Unit}
    (hm : wp m (fun _ source => source.snapshot = s.source.snapshot
      ∧ source.active = s.source.active) (fun _ source => source = s.source) s.source) :
    wp (Session.onSource (R := Workspace) (Source.onSource m))
      (fun _ t => Tracked r₀ revision received t) (fun _ t => Tracked r₀ revision received t) s := by
  unfold Session.onSource Source.onSource
  rw [wp_zoom, wp_zoom]
  apply wp_mono hm
  · rintro _ source ⟨hsnapshot, hactive⟩
    apply Tracked.source (p := (s.source, s.replica)) h
    intro hguarded
    refine ⟨?_, ?_, ?_⟩
    · rw [hsnapshot]
      exact hguarded.offered
    · rw [hsnapshot]
      exact hguarded.blobs
    · rw [hactive]
      exact hguarded.active
  · rintro _ source rfl
    exact h

lemma wp_trackedDispatch (h : Tracked r₀ revision received s) (message : Message) :
    wp (Session.dispatch (R := Workspace) message)
      (fun replies t => Tracked r₀ revision (received ++ [message]) t
        ∧ Replied t.replica.root (received ++ [message]) message replies)
      (fun _ t => Tracked r₀ revision (received ++ [message]) t) s := by
  have hlater := h.later [message]
  unfold Session.dispatch
  cases message with
  | hello version encoding space => exact hlater
  | inventory after =>
    simp only
    unfold Session.onSource
    rw [wp_bind, wp_zoom]
    apply wp_mono (wp_trackedInventory (p := (s.source, s.replica)) hlater after) _ fun _ _ hq => hq
    rintro reply q ⟨hq, hsilent⟩
    exact ⟨hq, (silent_singleton hsilent).replied⟩
  | need record blob offset =>
    simp only
    unfold Session.onSource
    rw [wp_bind, wp_zoom]
    apply wp_mono (wp_trackedNeed (p := (s.source, s.replica)) hlater ⟨record, blob⟩ offset) _
      fun _ _ hq => hq
    rintro reply q ⟨hq, hanswers⟩
    refine ⟨hq, fun hdistinct key hash start total bytes hmem => ?_⟩
    obtain ⟨hobject, rfl, hsendable⟩ :=
      hanswers hdistinct key hash start total bytes (List.mem_singleton.mp hmem).symm
    cases hobject
    exact ⟨rfl, hsendable⟩
  | ack record blob =>
    simp only
    unfold Session.acknowledge
    rw [wp_bind, wp_bind]
    have hack : wp (Source.ack ⟨record, blob⟩)
        (fun _ source => source.snapshot = s.source.snapshot ∧ source.active = s.source.active)
        (fun _ source => source = s.source) s.source := by
      unfold Source.ack
      rw [wp_bind, wp_get, wp_guard]
      exact ⟨fun _ => rfl, fun _ => ⟨rfl, rfl⟩⟩
    apply wp_mono (wp_trackedConfirmation hlater hack) _ fun _ _ ht => ht
    intro _ t ht
    rw [wp_modify, wp_pure]
    exact ⟨Tracked.frame ht rfl rfl rfl id, silent_nil.replied⟩
  | checked position =>
    simp only
    rw [wp_bind]
    have hchecked : wp (Source.checked position)
        (fun _ source => source.snapshot = s.source.snapshot ∧ source.active = s.source.active)
        (fun _ source => source = s.source) s.source := by
      unfold Source.checked
      rw [wp_bind, wp_get, wp_guard]
      exact ⟨fun _ => rfl, fun _ => ⟨rfl, rfl⟩⟩
    apply wp_mono (wp_trackedConfirmation hlater hchecked) _ fun _ _ ht => ht
    intro _ t ht
    exact ⟨ht, silent_nil.replied⟩
  | page offset total records more =>
    simp only
    rw [wp_bind]
    apply wp_mono (wp_trackedPage hlater offset total records more) _ fun _ _ ht => ht
    intro _ t ht
    apply wp_mono (wp_trackedAdvance ht silent_nil) _ fun _ _ hu => hu
    rintro replies u ⟨hu, hsilent⟩
    exact ⟨hu, hsilent.replied⟩
  | chunk record blob offset total bytes =>
    apply wp_mono (wp_trackedChunk h ⟨record, blob⟩ offset total bytes) _ fun _ _ ht => ht
    rintro replies t ⟨ht, hsilent⟩
    exact ⟨ht, hsilent.replied⟩
  | missing record blob =>
    apply wp_mono (wp_trackedMissing hlater ⟨record, blob⟩) _ fun _ _ ht => ht
    rintro replies t ⟨ht, hsilent⟩
    exact ⟨ht, hsilent.replied⟩

omit [ScopeJson] in
/-- The flag of a failed session is no part of what it holds. -/
lemma Tracked.flag (h : Tracked r₀ revision received s) (failed : Bool) :
    Tracked r₀ revision received { s with failed := failed } :=
  Tracked.frame h rfl rfl rfl id

lemma wp_trackedTick (h : Tracked r₀ revision received s) :
    wp (Session.tick (R := Workspace))
      (fun replies t => Tracked r₀ revision received t ∧ Silent replies)
      (fun _ t => Tracked r₀ revision received t) s := by
  unfold Session.tick Session.ensureOpen
  rw [wp_bind, wp_bind, wp_get, wp_ite]
  refine ⟨fun _ => h, fun _ => ?_⟩
  apply wp_guarded
  apply wp_mono (wp_trackedRound h)
  · rintro replies t ⟨ht, hsilent⟩
    exact ⟨ht.flag false, hsilent⟩
  · intro _ t ht
    exact ht.flag true

lemma wp_trackedProcess (h : Tracked r₀ revision received s) (message : Message) :
    wp (Session.process (R := Workspace) message)
      (fun replies t => Tracked r₀ revision (received ++ [message]) t
        ∧ Replied t.replica.root (received ++ [message]) message replies)
      (fun _ t => Tracked r₀ revision (received ++ [message]) t) s := by
  unfold Session.process
  rw [wp_bind]
  apply wp_mono (wp_trackedScope h) _ fun _ _ ht => ht.later [message]
  rintro _ t ⟨ht, -, -⟩
  rw [wp_bind, wp_get, wp_ite]
  refine ⟨fun _ => ?_, fun _ => ?_⟩
  · rw [wp_bind]
    apply wp_mono (wp_trackedDispatch ht message) _ fun _ _ hu => hu
    rintro replies u ⟨hu, hreplied⟩
    rw [wp_bind, wp_modify, wp_pure]
    exact ⟨Tracked.frame hu rfl rfl rfl id, hreplied⟩
  · have hlater := ht.later [message]
    unfold Session.negotiate
    rw [wp_bind, wp_get, wp_guard]
    refine ⟨fun _ => hlater, fun _ => ?_⟩
    rw [wp_guard]
    refine ⟨fun _ => hlater, fun _ => ?_⟩
    rw [wp_bind, wp_modify]
    have haccepted : Tracked r₀ revision (received ++ [message])
        { t with progress := { t.progress with accepted := true } } :=
      Tracked.frame hlater rfl rfl rfl id
    apply wp_mono (wp_trackedTick haccepted) _ fun _ _ hu => hu
    rintro replies u ⟨hu, hsilent⟩
    exact ⟨hu, hsilent.replied⟩

/-- What a turn does, and what it sends. -/
lemma wp_trackedTurn (h : Tracked r₀ revision received s) (input : Input) :
    wp (Session.turn (R := Workspace) input)
      (fun replies t => Tracked r₀ revision (received ++ input.messages) t
        ∧ (Distinct (received ++ input.messages) t.replica.root.chain →
          ∀ key hash start total bytes, .chunk key (some hash) start total bytes ∈ replies →
            input = .receive (.need key (some hash) start) ∧ Sendable t.replica.root key hash))
      (fun _ t => Tracked r₀ revision (received ++ input.messages) t) s := by
  unfold Session.turn
  cases input with
  | tick =>
    apply wp_mono (wp_trackedTick h)
    · rintro replies t ⟨ht, hsilent⟩
      refine ⟨ht.later [], fun _ key hash start total bytes hmem => ?_⟩
      have hcarried := hsilent _ hmem
      cases hcarried
    · intro _ t ht
      exact ht.later []
  | receive message =>
    simp only
    unfold Session.receive Session.ensureOpen
    rw [wp_bind, wp_bind, wp_get, wp_ite]
    refine ⟨fun _ => h.later [message], fun _ => ?_⟩
    apply wp_guarded
    apply wp_mono (wp_trackedProcess h message)
    · rintro replies t ⟨ht, hreplied⟩
      refine ⟨ht.flag false, fun hdistinct key hash start total bytes hmem => ?_⟩
      obtain ⟨rfl, hsendable⟩ := hreplied hdistinct key hash start total bytes hmem
      exact ⟨rfl, hsendable⟩
    · intro _ t ht
      exact ht.flag true

end Replica

/-! ## Devices -/

namespace Device

open Replica

/-- The replicas of the sessions, without the sessions. -/
def world (d : Device) : World := ⟨d.root, d.links.map fun link => link.session.replica.replica⟩

/-- No peer found other bytes with the digest of a record in the log. -/
def Apart (d : Device) : Prop := ∀ link ∈ d.links, Distinct link.received d.root.chain

/-- What holds of a device and its sessions between turns. -/
structure Secure (d : Device) : Prop where
  sane : World.Sane d.world
  pulls : ∀ link ∈ d.links, GuardedPull link.received link.session.pull
  guarded : ∀ link ∈ d.links, Distinct link.received d.root.chain → Guarded d.root link.session

/-- What an event may do to the files. -/
structure Proceeds (d d' : Device) : Prop where
  path : Replica.Path Fixed d.root d'.root
  /-- Sessions stay, and what they were given. -/
  links : ∀ (i : ℕ) (link : Link), d.links[i]? = some link →
    ∃ link' : Link, d'.links[i]? = some link' ∧ ∃ later, link'.received = link.received ++ later
  entered : d'.Apart → ∀ hash, ReceivedHash d'.root hash →
    ReceivedHash d.root hash ∨ Referenced d'.root hash
      ∨ ∃ link ∈ d'.links, Supplied link.received hash

variable {d : Device}

omit [ScopeJson] in
/-- Events that open no session and take no turn. -/
lemma Secure.moved (h : Secure d) {root : Root} {allowed : Kind → Prop}
    (hsane : World.Sane { d.world with root := root })
    (hpath : Replica.Path allowed d.root root) (hkinds : ∀ kind, allowed kind → Fixed kind)
    (hpublish : ∀ rev hash, ¬ allowed (.publish rev hash)) :
    Secure { d with root := root } ∧ Proceeds d { d with root := root } := by
  have hfixed : Replica.Path Fixed d.root root := hpath.mono hkinds
  refine ⟨⟨hsane, h.pulls, ?_⟩, hfixed, ?_, ?_⟩
  · intro link hlink hdistinct
    have hbefore := distinct_of_path hdistinct h.sane.consistent hfixed
    exact (h.guarded link hlink hbefore).mono h.sane.consistent hfixed
  · intro i link hlink
    exact ⟨link, hlink, [], (List.append_nil _).symm⟩
  · intro _ hash hhash
    rcases hpath.entered h.sane.consistent hhash with hold | ⟨rev, hallowed⟩
    · exact .inl hold
    · exact absurd hallowed (hpublish rev hash)

omit [Schema Op] [Blake3] [Checksum] [ScopeJson] [ContentSchema Op] in
lemma fixed_of_owning {kind : Kind} (h : World.Owning kind) : Fixed kind := by
  rw [h]
  exact ⟨fun hne => (by cases hne), fun _ hne => (by cases hne)⟩

omit [Schema Op] [Blake3] [Checksum] [ScopeJson] [ContentSchema Op] in
lemma fixed_of_binding {kind : Kind} (h : Binding kind) : Fixed kind := by
  rw [h]
  exact ⟨fun hne => (by cases hne), fun _ hne => (by cases hne)⟩

omit [ScopeJson] in
/-- A session that has just begun holds nothing. -/
lemma guarded_new (r : Root) (w : Workspace) : Guarded r (Session.new w) := by
  refine ⟨⟨?_, ?_, ?_⟩, ⟨?_, ?_, ?_⟩⟩
  · exact fun _ hnone => (by cases hnone)
  · exact fun _ hnone => (by cases hnone)
  · exact fun _ _ _ _ hnone => (by cases hnone)
  · intro key bytes hrecord
    simp [Session.new, Snapshot.empty, Snapshot.record] at hrecord
  · intro key hkey
    simp [Session.new, Snapshot.empty] at hkey
  · intro hash hhash
    simp [Session.new, Snapshot.empty] at hhash

lemma Secure.connect (h : Secure d) (space : String) (backfill : Bool) :
    Secure (d.next (.connect space backfill)) ∧ Proceeds d (d.next (.connect space backfill)) := by
  obtain ⟨hsane, hpath⟩ := h.sane.next (.openSpace space backfill)
  simp only [World.next, World.kinds] at hsane hpath
  cases hopen : (Replica.openSpace space backfill).exec d.root with
  | mk result root =>
    rw [show d.world.root = d.root from rfl, hopen] at hsane hpath
    simp only [next, hopen]
    cases result with
    | error e =>
      exact h.moved hsane hpath (fun _ => fixed_of_binding) fun _ _ hnone => (by cases hnone)
    | ok replica =>
      simp only at hsane hpath ⊢
      have hfixed : Replica.Path Fixed d.root root := hpath.mono fun _ => fixed_of_binding
      refine ⟨⟨?_, ?_, ?_⟩, hfixed, ?_, ?_⟩
      · have hworld : world ⟨root, d.links ++ [{ session := .new ⟨root, replica⟩ }]⟩
            = ⟨root, d.world.replicas ++ [replica]⟩ := by
          unfold world
          rw [List.map_append]
          rfl
        rw [hworld]
        exact hsane
      · intro link hlink
        rcases List.mem_append.mp hlink with hold | hnew
        · exact h.pulls link hold
        · rw [List.mem_singleton.mp hnew]
          exact ⟨fun _ hnone => (by cases hnone), fun _ hnone => (by cases hnone)⟩
      · intro link hlink hdistinct
        rcases List.mem_append.mp hlink with hold | hnew
        · have hbefore := distinct_of_path hdistinct h.sane.consistent hfixed
          exact (h.guarded link hold hbefore).mono h.sane.consistent hfixed
        · rw [List.mem_singleton.mp hnew]
          exact guarded_new root _
      · intro i link hlink
        refine ⟨link, ?_, [], (List.append_nil _).symm⟩
        obtain ⟨hlt, -⟩ := List.getElem?_eq_some_iff.mp hlink
        rw [List.getElem?_append_left hlt]
        exact hlink
      · intro _ hash hhash
        rcases hpath.entered h.sane.consistent hhash with hold | ⟨rev, hallowed⟩
        · exact .inl hold
        · cases hallowed

/-- A turn keeps the device and its sessions in order, and sends only what may be sent. -/
lemma Secure.turn (h : Secure d) (i : ℕ) (input : Input) :
    Secure (d.next (.turn i input)) ∧ Proceeds d (d.next (.turn i input))
      ∧ ((d.next (.turn i input)).Apart → ∀ replies, d.answer i input = some (.ok replies) →
        ∀ key hash start total bytes, .chunk key (some hash) start total bytes ∈ replies →
          input = .receive (.need key (some hash) start)
            ∧ Sendable (d.next (.turn i input)).root key hash) := by
  unfold answer
  cases hlink : d.links[i]? with
  | none =>
    simp only [next, hlink]
    refine ⟨h, ⟨Replica.Path.refl _, fun j link hj => ⟨link, hj, [], (List.append_nil _).symm⟩,
      fun _ _ hhash => .inl hhash⟩, fun _ _ hnone => (by cases hnone)⟩
  | some link =>
    have hin : link ∈ d.links := List.mem_of_getElem? hlink
    have hreplica : d.world.replicas[i]? = some link.session.replica.replica := by
      unfold world
      rw [List.getElem?_map, hlink]
      rfl
    have hstart : Tracked d.root link.session.replica.replica.scopeRevision link.received
        (d.current link) := by
      refine ⟨h.sane.workspace hreplica, h.sane.consistent, Replica.Path.refl _, rfl, h.pulls link hin,
        fun hdistinct => ?_⟩
      obtain ⟨hsource, hknown⟩ := h.guarded link hin hdistinct
      exact ⟨⟨hsource, hknown⟩, fun _ hhash => .inl hhash⟩
    have hturn := wp_trackedTurn hstart input
    simp only [next, hlink]
    cases hexec : (Session.turn input).exec (d.current link) with
    | mk result t =>
      unfold wp at hturn
      rw [hexec] at hturn
      have ht : Tracked d.root link.session.replica.replica.scopeRevision
          (link.received ++ input.messages) t := by
        cases result with
        | ok replies => exact hturn.1
        | error e => exact hturn
      obtain ⟨hlt, -⟩ := List.getElem?_eq_some_iff.mp hlink
      set link' : Link := ⟨t, link.received ++ input.messages⟩ with hlink'
      have hnew : link' ∈ d.links.set i link' :=
        List.mem_of_getElem? (List.getElem?_set_self hlt)
      have hpath : Replica.Path Fixed d.world.root t.replica.root := ht.path
      refine ⟨⟨⟨ht.sound.holds, ht.sound.unlocked, ht.consistent, ?_, ?_⟩, ?_, ?_⟩,
        ⟨ht.path, ?_, ?_⟩, ?_⟩
      · intro replica hmem
        obtain ⟨other, hother, rfl⟩ := List.mem_map.mp hmem
        rcases List.mem_or_eq_of_mem_set hother with hold | rfl
        · exact (h.sane.others hpath hpath.grows (List.mem_map_of_mem hold)).1
        · exact ht.sound.follows
      · intro replica hmem
        obtain ⟨other, hother, rfl⟩ := List.mem_map.mp hmem
        rcases List.mem_or_eq_of_mem_set hother with hold | rfl
        · exact (h.sane.others hpath hpath.grows (List.mem_map_of_mem hold)).2
        · obtain ⟨scope, hscope, hle⟩ :=
            (h.sane.others hpath hpath.grows (List.mem_of_getElem? hreplica)).2
          refine ⟨scope, hscope, ?_⟩
          rw [ht.revision]
          exact hle
      · intro other hother
        rcases List.mem_or_eq_of_mem_set hother with hold | rfl
        · exact h.pulls other hold
        · exact ht.pull
      · intro other hother hdistinct
        rcases List.mem_or_eq_of_mem_set hother with hold | rfl
        · have hbefore := distinct_of_path hdistinct h.sane.consistent ht.path
          exact (h.guarded other hold hbefore).mono h.sane.consistent ht.path
        · exact (ht.secure hdistinct).1
      · intro j other hj
        by_cases hji : i = j
        · subst hji
          rw [hlink] at hj
          cases hj
          exact ⟨link', List.getElem?_set_self hlt, input.messages, rfl⟩
        · refine ⟨other, ?_, [], (List.append_nil _).symm⟩
          rw [List.getElem?_set_ne hji]
          exact hj
      · intro hapart hash hhash
        obtain ⟨-, hentered⟩ := ht.secure (hapart link' hnew)
        rcases hentered hash hhash with hold | hreferenced | hsupplied
        · exact .inl hold
        · exact .inr (.inl hreferenced)
        · exact .inr (.inr ⟨link', hnew, hsupplied⟩)
      · intro hapart replies hanswer
        simp only [Option.map_some, hexec] at hanswer
        cases result with
        | error e => cases hanswer
        | ok sent =>
          cases hanswer
          exact hturn.2 (hapart link' hnew)

/-- Every event keeps the device in order. -/
lemma Secure.next (h : Secure d) (event : Event) :
    Secure (d.next event) ∧ Proceeds d (d.next event) := by
  cases event with
  | script io =>
    obtain ⟨hsane, hpath⟩ := h.sane.next (.script io)
    exact h.moved hsane hpath (fun _ hnone => hnone.elim) fun _ _ hnone => hnone.elim
  | capture calls =>
    obtain ⟨hsane, hpath⟩ := h.sane.next (.capture calls)
    exact h.moved hsane hpath (fun _ => fixed_of_owning) fun _ _ hnone => (by cases hnone)
  | write bytes =>
    obtain ⟨hsane, hpath⟩ := h.sane.next (.write bytes)
    exact h.moved hsane hpath (fun _ => fixed_of_owning) fun _ _ hnone => (by cases hnone)
  | connect space backfill => exact h.connect space backfill
  | turn i input =>
    obtain ⟨hsecure, hproceeds, -⟩ := h.turn i input
    exact ⟨hsecure, hproceeds⟩

omit [ScopeJson] in
/-- Digests that are apart were apart before. -/
lemma Apart.of_proceeds {d' : Device} (h : Apart d') (hsecure : Secure d) (hproceeds : Proceeds d d') :
    Apart d := by
  intro link hlink
  obtain ⟨i, hi⟩ := List.getElem?_of_mem hlink
  obtain ⟨link', hlink', later, hlater⟩ := hproceeds.links i link hi
  have hdistinct := h link' (List.mem_of_getElem? hlink')
  rw [hlater] at hdistinct
  exact distinct_of_path (distinct_of_append hdistinct) hsecure.sane.consistent hproceeds.path

omit [ScopeJson] in
lemma Supplied.of_proceeds {d' : Device} (hproceeds : Proceeds d d') {hash : Digest}
    (h : ∃ link ∈ d.links, Supplied link.received hash) :
    ∃ link ∈ d'.links, Supplied link.received hash := by
  obtain ⟨link, hlink, bytes, hgiven, hbytes⟩ := h
  obtain ⟨i, hi⟩ := List.getElem?_of_mem hlink
  obtain ⟨link', hlink', later, hlater⟩ := hproceeds.links i link hi
  refine ⟨link', List.mem_of_getElem? hlink', bytes, ?_, hbytes⟩
  rw [hlater]
  exact hgiven.mono later

/-! ## Runs -/

lemma run_append (events : List Event) (event : Event) :
    run (events ++ [event]) = (run events).next event := by
  unfold run
  rw [List.foldl_append]
  rfl

lemma secure_run (events : List Event) : Secure (run events) := by
  induction events using List.reverseRecOn with
  | nil => exact ⟨World.sane_empty, fun _ hnone => (by cases hnone), fun _ hnone => (by cases hnone)⟩
  | append_singleton events event ih =>
    rw [run_append]
    exact (ih.next event).1

lemma proceeds_run (events : List Event) (event : Event) :
    Proceeds (run events) (run (events ++ [event])) := by
  rw [run_append]
  exact ((secure_run events).next event).2

/-- What holds at the end held at every point before. -/
lemma apart_before {before events : List Event} (hpre : before <+: events)
    (h : (run events).Apart) : (run before).Apart := by
  obtain ⟨after, rfl⟩ := hpre
  induction after using List.reverseRecOn with
  | nil =>
    rw [List.append_nil] at h
    exact h
  | append_singleton after event ih =>
    rw [← List.append_assoc] at h
    exact ih (h.of_proceeds (secure_run _) (proceeds_run _ event))

lemma supplied_before {before events : List Event} (hpre : before <+: events) {hash : Digest}
    (h : ∃ link ∈ (run before).links, Supplied link.received hash) :
    ∃ link ∈ (run events).links, Supplied link.received hash := by
  obtain ⟨after, rfl⟩ := hpre
  induction after using List.reverseRecOn with
  | nil =>
    rw [List.append_nil]
    exact h
  | append_singleton after event ih =>
    rw [← List.append_assoc]
    exact Supplied.of_proceeds (proceeds_run _ event) ih

/-- What a run says about content. -/
structure KeepsPrivate (events : List Event) : Prop where
  /-- Content is sent only for a request that names an exported record which refers to it, and only
  if the record was not received or the content was. -/
  sent : ∀ before i input after replies, events = before ++ .turn i input :: after →
    (run before).answer i input = some (.ok replies) →
      ∀ key hash start total bytes, .chunk key (some hash) start total bytes ∈ replies →
        input = .receive (.need key (some hash) start)
          ∧ Sendable (run (before ++ [.turn i input])).root key hash
  /-- A hash enters the ledger of received content only if a peer supplied the content, or an
  exported record that was not received refers to it. -/
  entered : ∀ before event after, events = before ++ event :: after →
    ∀ hash, ReceivedHash (run (before ++ [event])).root hash →
      ReceivedHash (run before).root hash ∨ Referenced (run (before ++ [event])).root hash
        ∨ ∃ link ∈ (run (before ++ [event])).links, Supplied link.received hash
  /-- Content that no such record refers to, and that no peer supplied, is not sent. -/
  guessed : ∀ hash, (∀ before, before <+: events → ¬ Referenced (run before).root hash) →
    (¬ ∃ link ∈ (run events).links, Supplied link.received hash) →
      ∀ before i input after replies, events = before ++ .turn i input :: after →
        (run before).answer i input = some (.ok replies) →
          ∀ key start total bytes, .chunk key (some hash) start total bytes ∉ replies

/-- A guessed hash reveals nothing: in every run of any sessions against any peers, content leaves
only for records that share it. -/
theorem guessed_hash_reveals_nothing (events : List Event) (hapart : (run events).Apart) :
    KeepsPrivate events := by
  have hpre : ∀ {before after : List Event} {event : Event}, events = before ++ event :: after →
      before ++ [event] <+: events := by
    rintro before after event rfl
    exact ⟨after, by simp⟩
  have hsent : ∀ before i input after replies, events = before ++ .turn i input :: after →
      (run before).answer i input = some (.ok replies) →
        ∀ key hash start total bytes, .chunk key (some hash) start total bytes ∈ replies →
          input = .receive (.need key (some hash) start)
            ∧ Sendable (run (before ++ [.turn i input])).root key hash := by
    intro before i input after replies hevents hanswer
    have happart := apart_before (hpre hevents) hapart
    rw [run_append] at happart ⊢
    exact ((secure_run before).turn i input).2.2 happart replies hanswer
  have hentered : ∀ before event after, events = before ++ event :: after →
      ∀ hash, ReceivedHash (run (before ++ [event])).root hash →
        ReceivedHash (run before).root hash ∨ Referenced (run (before ++ [event])).root hash
          ∨ ∃ link ∈ (run (before ++ [event])).links, Supplied link.received hash := by
    intro before event after hevents
    exact (proceeds_run before event).entered (apart_before (hpre hevents) hapart)
  refine ⟨hsent, hentered, ?_⟩
  intro hash hreferenced hsupplied before i input after replies hevents hanswer key start total
    bytes hmem
  -- the hash never enters the ledger of received content
  have hfresh : ∀ now, now <+: events → ¬ ReceivedHash (run now).root hash := by
    intro now
    induction now using List.reverseRecOn with
    | nil =>
      rintro - ⟨scope, hscope, -⟩
      cases hscope
    | append_singleton now event ih =>
      intro hnow hhash
      obtain ⟨later, hlater⟩ := hnow
      have hsplit : events = now ++ event :: later := by
        rw [← hlater]
        simp
      rcases hentered now event later hsplit hash hhash with hold | hreferenced' | hsupplied'
      · exact ih ⟨event :: later, hsplit.symm⟩ hold
      · exact hreferenced _ (hpre hsplit) hreferenced'
      · exact hsupplied (supplied_before (hpre hsplit) hsupplied')
  obtain ⟨-, content, hexported, hreferences, hpermitted⟩ :=
    hsent before i input after replies hevents hanswer key hash start total bytes hmem
  rcases hpermitted with hnot | hhash
  · exact hreferenced _ (hpre hevents) ⟨key, content, ⟨hexported, hnot⟩, hreferences⟩
  · exact hfresh _ (hpre hevents) hhash

end Device
end EditChain.Sync

namespace EditChain.Sync

open Core Fallible Store

section Messages

/-- BLAKE3 on no bytes, the texts `hello` and `secret` and the two encodings of the message. -/
@[reducible] def secretDigests : Blake3 where
  hash bytes :=
    if bytes = [] then 0xaf1349b9f5f9a1a6a0404dea36dcc9499bcb25c9adc112b7cc9a93cae41f3262
    else if bytes = [104, 101, 108, 108, 111] then
      0xea8f163db38682925e4491c5e58d4bb3506ef8c14eb78a86e908c5624a67200f
    else if bytes = [115, 101, 99, 114, 101, 116] then
      0x5fbf08af2b116ab8f7f3c14b8ec01a46ce23d290e2ebc7a752d0982d54c054f2
    else messageDigests.hash bytes

/-- Every message refers to the text `hello`. -/
@[reducible] def sharedContent : ContentSchema OpId :=
  ⟨fun _ => Std.ExtTreeMap.empty.insert (secretDigests.hash [104, 101, 108, 108, 111]) [5]⟩

local instance deviceSchema : Schema OpId := messageSchema
local instance deviceDigests : Blake3 := secretDigests
local instance deviceContent : ContentSchema OpId := sharedContent
local instance deviceChecksum : Checksum := crc32cChecksum
local instance deviceJson : ScopeJson := ⟨fun _ => 0⟩

/-- A request for content by its hash, with the key of the message. -/
def contentNeed (bytes : Bytes) : Input :=
  .receive (.need ⟨messageId, Blake3.hash messageV1⟩ (some (Blake3.hash bytes)) 0)

/-- A device with a message that refers to content, that content and a secret, and a peer that
guesses the hash of the secret. -/
def secretEvents : List Device.Event :=
  [.capture [.reopen 4096 {}, .appendPage ((Page.new 0).addRecord 0 messageV1) {}],
    .write [104, 101, 108, 108, 111], .write [115, 101, 99, 114, 101, 116], .connect "space" true,
    .turn 0 (.receive (.hello peerVersion 1 "space")), .turn 0 (.receive (.inventory none)),
    .turn 0 (contentNeed [115, 101, 99, 114, 101, 116])]

/-- The message and the content that it refers to are sent, the secret is not. -/
theorem Device.secret_stays_private :
    ((Device.run secretEvents).answer 0
        (.receive (.need ⟨messageId, Blake3.hash messageV1⟩ none 0))).any
      (fun result => decide (result
        = .ok [.chunk ⟨messageId, Blake3.hash messageV1⟩ none 0 29 messageV1])) = true
      ∧ ((Device.run secretEvents).answer 0 (contentNeed [104, 101, 108, 108, 111])).any
        (fun result => decide (result
          = .ok [.chunk ⟨messageId, Blake3.hash messageV1⟩
            (some (Blake3.hash [104, 101, 108, 108, 111])) 0 5 [104, 101, 108, 108, 111]])) = true
      ∧ Device.KeepsPrivate secretEvents := by
  refine ⟨by decide +kernel, by decide +kernel,
    Device.guessed_hash_reveals_nothing secretEvents ?_⟩
  have hcarried : ((Device.run secretEvents).links.all fun link =>
      decide (link.received.filterMap Message.carried = [])) = true := by
    decide +kernel
  have hdigests : ((history (Device.run secretEvents).root.chain).all fun o =>
      decide (Blake3.hash [] ≠ Blake3.hash o.2.bytes)) = true := by
    decide +kernel
  rintro link hlink bytes ⟨parts, hparts, rfl⟩ o ho hhash
  rw [of_decide_eq_true (List.all_eq_true.mp hcarried link hlink), List.sublist_nil] at hparts
  rw [hparts] at hhash
  exact absurd hhash (of_decide_eq_true (List.all_eq_true.mp hdigests o ho))

end Messages

end EditChain.Sync
