import EditChain.Sync.InventoryTheorems
import EditChain.Sync.NetworkTheorems
import EditChain.Sync.StorageTheorems

/-!
# Two honest sessions agree

Over storages that do not fail, no call of two joined sessions fails. The invariant of one
direction compares the pulling side with the source of the other end as it will be once all notices
in flight have arrived, and says what the request or the reply in flight then stands for.
-/

namespace EditChain.Sync

open Core Fallible

variable {Op : Type} [Schema Op] [Blake3] {R S : Type}

/-! ## Storages that do not fail -/

/-- What two ends know of the objects that they exchange. -/
structure Terms where
  /-- The bytes that an object may have. -/
  authentic : Object → Bytes → Prop
  /-- The content that the references of a record lead to. -/
  linked : RecordKey → Digest → Prop

/-- A storage that never returns an error to a session which uses it as the interface says: `good`
is about the state of the storage, the snapshot that was last offered and the one that the session
holds. Content is asked for by references of records in these snapshots, and published when its
record is held. The storage offers content within the limits that every storage accepts, and records
with few references; a snapshot that fits into memory has at most `maxTotal` records. -/
structure Reliable [ReplicationStorage R] (space : String) (terms : Terms)
    (good : R → Option Snapshot → Snapshot → Prop) : Prop where
  named : ∀ {r offered held}, good r offered held → ReplicationStorage.namespaceOf r = space
  offers : ∀ {r offered held key bytes}, good r (some offered) held →
    offered.record key = some bytes → terms.authentic ⟨key, none⟩ bytes
  ensureScope : ∀ {r offered held}, good r offered held →
    wp ReplicationStorage.ensureScope (fun _ t => good t offered held) (fun _ _ => False) r
  snapshot : ∀ {r offered held}, good r offered held → wp ReplicationStorage.snapshot
    (fun snapshot t => good t (some snapshot) held ∧ snapshot.len ≤ maxTotal)
    (fun _ _ => False) r
  receivingSnapshot : ∀ {r offered held}, good r offered held →
    wp ReplicationStorage.receivingSnapshot (fun snapshot t => good t offered snapshot)
      (fun _ _ => False) r
  ingestRecords : ∀ {records r offered held}, good r offered held →
    validateRecords records = .ok () →
    (∀ record ∈ records, terms.authentic ⟨record.1, none⟩ record.2) →
    wp (ReplicationStorage.ingestRecords records)
      (fun _ p => good p.1 offered p.2 ∧
        ∀ key, held.contains key ∨ key ∈ records.map Prod.fst → p.2.contains key)
      (fun _ _ => False) (r, held)
  blobHashes : ∀ {key r offered held}, good r offered held → held.contains key →
    wp (ReplicationStorage.blobHashes held key)
      (fun hashes t => good t offered held ∧ hashes.size ≤ maxReferences ∧
        ∀ hash ∈ hashes, terms.linked key hash) (fun _ _ => False) r
  readBlob : ∀ {key hash r offered held}, good r (some offered) held → offered.contains key →
    terms.linked key hash →
    wp (ReplicationStorage.readBlob offered key hash)
      (fun content t => good t (some offered) held ∧ ∀ bytes, content = some bytes →
        bytes.length ≤ maxObjectBytes ∧ terms.authentic ⟨key, some hash⟩ bytes)
      (fun _ _ => False) r
  ingestBlob : ∀ {key hash bytes r offered held}, good r offered held → held.contains key →
    terms.linked key hash → terms.authentic ⟨key, some hash⟩ bytes →
    wp (ReplicationStorage.ingestBlob key hash bytes)
      (fun _ t => good t offered (held.receivedBlob hash)) (fun _ _ => False) r
  confirmBlob : ∀ {key hash r offered held}, good r offered held → held.contains key →
    terms.linked key hash →
    wp (ReplicationStorage.confirmBlob held key hash) (fun _ t => good t offered held)
      (fun _ _ => False) r

/-- The storage is good for the snapshots of its session. -/
abbrev Session.Good (good : R → Option Snapshot → Snapshot → Prop) (s : Session R) : Prop :=
  good s.replica s.source.snapshot s.localSnapshot

/-! ## Notices -/

/-- The source has taken in some notices, in order. -/
inductive Settles : Source → List Message → Source → Prop where
  | nil (source : Source) : Settles source [] source
  | ack {source next last : Source} {record : RecordKey} {blob : Option Digest}
      {notices : List Message}
      (taken : (Source.ack ⟨record, blob⟩).exec source = (.ok (), next))
      (rest : Settles next notices last) : Settles source (.ack record blob :: notices) last
  | checked {source next last : Source} {position : ℕ} {notices : List Message}
      (taken : (Source.checked position).exec source = (.ok (), next))
      (rest : Settles next notices last) : Settles source (.checked position :: notices) last

lemma Settles.append {first second third : Source} {notices later : List Message}
    (h : Settles first notices second) (h' : Settles second later third) :
    Settles first (notices ++ later) third := by
  induction h with
  | nil => exact h'
  | ack taken _ ih => exact .ack taken (ih h')
  | checked taken _ ih => exact .checked taken (ih h')

lemma settles_ack {source : Source} {object : Object} (h : object ∈ source.unacked) :
    Settles source [object.ack] { source with unacked := source.unacked.erase object } := by
  refine .ack ?_ (.nil _)
  unfold Source.ack
  simp [exec_bind, h]

/-- Acknowledging objects that are sent and not yet acknowledged. -/
lemma settles_acks {source : Source} {objects : List Object}
    (h : ∀ object ∈ objects, object ∈ source.unacked) (hnodup : objects.Nodup) :
    Settles source (objects.map Object.ack)
      { source with unacked := source.unacked \ objects.toFinset } := by
  induction objects generalizing source with
  | nil => simpa using Settles.nil source
  | cons object objects ih =>
    rw [List.nodup_cons] at hnodup
    have hfirst := settles_ack (h object List.mem_cons_self)
    have hrest : ∀ other ∈ objects, other ∈ source.unacked.erase object := by
      intro other hother
      apply Finset.mem_erase.mpr
      refine ⟨?_, h other (List.mem_cons_of_mem _ hother)⟩
      rintro rfl
      exact hnodup.1 hother
    have hlast := hfirst.append (ih hrest hnodup.2)
    have hset : source.unacked.erase object \ objects.toFinset
        = source.unacked \ (object :: objects).toFinset := by
      ext other
      simp only [Finset.mem_sdiff, Finset.mem_erase, List.mem_toFinset, List.mem_cons]
      tauto
    rw [← hset]
    exact hlast

/-- Confirming the page that the source is waiting for. -/
lemma settles_checked {source : Source} (hawaiting : source.awaitingCheck = true)
    (hactive : source.active = none) (hunacked : source.unacked = ∅) :
    Settles source [.checked source.next] { source with
      awaitingCheck := false
      progress := { source.progress with
        checkedRecords := source.next, complete := !source.more } } := by
  refine .checked ?_ (.nil _)
  unfold Source.checked
  simp [exec_bind, hawaiting, hactive, hunacked]

/-! ## What the source offers -/

/-- The state of a source between its pages. -/
structure Stocked (source : Source) : Prop where
  nodup : source.order.Nodup
  total : source.order.length ≤ maxTotal
  next : source.next ≤ source.order.length
  more : source.more = decide (source.next < source.order.length)
  cursor : source.more = true → source.cursor ≠ none
  held : ∀ key ∈ source.order, ∃ snapshot bytes, source.snapshot = some snapshot ∧
    snapshot.record key = some bytes

lemma stocked_empty : Stocked {} where
  nodup := .nil
  total := Nat.zero_le _
  next := Nat.le_refl _
  more := rfl
  cursor h := by cases h
  held key h := by cases h

/-- Notices change nothing that is offered. -/
lemma Settles.frame {source last : Source} {notices : List Message}
    (h : Settles source notices last) : last.order = source.order ∧ last.next = source.next ∧
      last.more = source.more ∧ last.cursor = source.cursor ∧ last.snapshot = source.snapshot ∧
      last.active = source.active := by
  induction h with
  | nil => exact ⟨rfl, rfl, rfl, rfl, rfl, rfl⟩
  | ack taken _ ih =>
    unfold Source.ack at taken
    rw [exec_bind, exec_get] at taken
    dsimp only at taken
    split at taken
    · simp at taken
    · simp at taken
      subst taken
      exact ih
  | checked taken _ ih =>
    unfold Source.checked at taken
    rw [exec_bind, exec_get] at taken
    dsimp only at taken
    split at taken
    · simp at taken
    · simp at taken
      subst taken
      exact ih

/-! ## Agreement of the two ends -/

/-- The bytes may be offered as the object. -/
structure Offers (terms : Terms) (object : Object) (bytes : Bytes) : Prop where
  short : bytes.length ≤ maxObjectBytes
  authentic : terms.authentic object bytes
  derived : object.blob = none → RecordKey.fromEncoded bytes = .ok object.record

/-- The object of a staged record. -/
def stagedObject (record : RecordKey × Bytes) : Object := ⟨record.1, none⟩

/-- Both ends are at the same page, which the source waits to be checked. -/
structure Paging (terms : Terms) (s : Session R) (source : Source) : Prop where
  stocked : Stocked source
  awaiting : source.awaitingCheck = true
  turned : s.pull.waitingPage = false
  synchronizing : s.progress.synchronizing = true
  position : s.pull.position = source.next
  more : s.pull.more = source.more
  after : s.pull.after = source.cursor
  total : s.progress.incoming.totalRecords = some source.order.length
  keys : ∀ key ∈ s.pull.keys, key ∈ source.order
  records : ∀ key ∈ s.pull.records, key ∈ source.order
  blobs : ∀ object ∈ s.pull.blobs, object.record ∈ s.pull.keys ∧
    ∃ hash, object.blob = some hash ∧ terms.linked object.record hash

/-- A session at work on its page. The object in transfer, if any, is not staged; once the source
has sent all of it, it is not yet acknowledged. -/
structure Working (terms : Terms) (current sent : Option Object) (s : Session R)
    (source : Source) : Prop extends Paging terms s source where
  wanted : ∀ object, current = some object → object.record ∈ source.order
  /-- Each key of the page is requested once. -/
  distinct : (s.pull.staged.map stagedObject ++ current.toList
    ++ s.pull.records.map fun key => Object.mk key none).Nodup
  load : s.pull.staged.length + s.pull.records.length + current.toList.length ≤ inventoryPage
  /-- Content is asked for when all records of the page are durable. -/
  content : ∀ object hash, current = some object → object.blob = some hash →
    s.pull.staged = [] ∧ s.pull.records = [] ∧ object.record ∈ s.pull.keys ∧
      terms.linked object.record hash
  unacked : ∀ object, object ∈ source.unacked ↔
    object ∈ s.pull.staged.map stagedObject ∨ sent = some object
  derived : ∀ record ∈ s.pull.staged, RecordKey.fromEncoded record.2 = .ok record.1 ∧
    terms.authentic ⟨record.1, none⟩ record.2
  stagedBytes : s.pull.stagedBytes = (s.pull.staged.map fun record => record.2.length).sum
  batch : s.pull.stagedBytes ≤ maxObjectBytes
  /-- A key of the page that is not held yet is on its way. -/
  kept : ∀ key ∈ s.pull.keys, s.localSnapshot.contains key ∨ key ∈ s.pull.staged.map Prod.fst ∨
    key ∈ s.pull.records ∨ current = some ⟨key, none⟩

/-- The source has nothing in transfer, nothing to be acknowledged and no page to be checked. -/
structure Clean (source : Source) : Prop where
  stocked : Stocked source
  active : source.active = none
  unacked : source.unacked = ∅
  awaiting : source.awaitingCheck = false

/-- How far the transfer of an object has come, when the next part is asked for. -/
def Partway (terms : Terms) (download : Download)
    (source : Source) : Prop :=
  (download = .new download.object ∧ source.active = none) ∨
    ∃ bytes, source.active = some (download.object, bytes, download.bytes.length) ∧
      Offers terms download.object bytes ∧ 0 < download.bytes.length ∧
      download.bytes.length < bytes.length ∧ download.total = some bytes.length ∧
      download.bytes = bytes.take download.bytes.length

/-- The two ends of one direction, when the source has taken in all notices: what the session is
waiting for, and the request or the reply in flight. -/
inductive Agreed (terms : Terms) (s : Session R)
    (source : Source) : List Message → List Message → Prop where
  /-- Between two rounds. -/
  | idle (clean : Clean source) (resting : ¬ s.Waiting)
      (synchronizing : s.progress.synchronizing = false) : Agreed terms s source [] []
  /-- A round starts. -/
  | first (clean : Clean source) (waiting : s.pull.waitingPage = true)
      (synchronizing : s.progress.synchronizing = true) (free : s.pull = { waitingPage := true })
      (total : s.progress.incoming.totalRecords = none) :
      Agreed terms s source [.inventory none] []
  /-- The next page is asked for. -/
  | next (clean : Clean source) (waiting : s.pull.waitingPage = true)
      (synchronizing : s.progress.synchronizing = true) (free : s.pull.download = none)
      (staged : s.pull.staged = []) (stagedBytes : s.pull.stagedBytes = 0)
      (blobs : s.pull.blobs = []) (position : s.pull.position = source.next)
      (more : source.more = true)
      (total : s.progress.incoming.totalRecords = some source.order.length) :
      Agreed terms s source [.inventory source.cursor] []
  /-- A page is offered. -/
  | offered (stocked : Stocked source) (active : source.active = none)
      (unacked : source.unacked = ∅) (awaiting : source.awaitingCheck = true)
      (waiting : s.pull.waitingPage = true) (synchronizing : s.progress.synchronizing = true)
      (free : s.pull.download = none) (staged : s.pull.staged = [])
      (stagedBytes : s.pull.stagedBytes = 0) (blobs : s.pull.blobs = [])
      (records : List RecordKey) (nodup : records.Nodup) (short : records.length ≤ inventoryPage)
      (subset : ∀ key ∈ records, key ∈ source.order)
      (position : s.pull.position + records.length = source.next)
      (nonempty : source.more = true → records ≠ []) (cursor : source.cursor = records.getLast?)
      (total : s.progress.incoming.totalRecords.any
        (fun before => decide (before ≠ source.order.length)) = false) :
      Agreed terms s source []
        [.page s.pull.position source.order.length records source.more]
  /-- A part of an object is asked for. -/
  | asking (download : Download) (downloading : s.pull.download = some download)
      (working : Working terms (some download.object) none s source)
      (partway : Partway terms download source) :
      Agreed terms s source
        [.need download.object.record download.object.blob download.bytes.length] []
  /-- A part of an object is sent. -/
  | sending (download : Download) (downloading : s.pull.download = some download) (bytes : Bytes)
      (offers : Offers terms download.object bytes)
      (done : download.bytes = bytes.take download.bytes.length)
      (bounded : download.bytes.length ≤ bytes.length)
      (total : download.total.any (fun previous => decide (previous ≠ bytes.length)) = false)
      (part : Bytes) (hpart : part = (bytes.drop download.bytes.length).take chunkBytes)
      (working : if download.bytes.length + part.length = bytes.length then
        Working terms (some download.object) (some download.object) s source ∧ source.active = none
      else Working terms (some download.object) none s source ∧
        source.active = some (download.object, bytes, download.bytes.length + part.length)) :
      Agreed terms s source []
        [.chunk download.object.record download.object.blob download.bytes.length bytes.length part]
  /-- Content is answered to be missing. -/
  | absent (download : Download) (downloading : s.pull.download = some download)
      (working : Working terms (some download.object) none s source) (active : source.active = none)
      (fresh : download.bytes = []) (content : download.object.blob.isSome) :
      Agreed terms s source [] [.missing download.object.record download.object.blob]

/-- A session that differs only where neither end of its round sees it. -/
structure SameWork (s t : Session R) : Prop where
  pull : t.pull = s.pull
  synchronizing : t.progress.synchronizing = s.progress.synchronizing
  total : t.progress.incoming.totalRecords = s.progress.incoming.totalRecords
  accepted : t.progress.accepted = s.progress.accepted
  held : t.localSnapshot = s.localSnapshot

/-! ## The answering side -/

variable {terms : Terms} {s : Session R} {source : Source}

/-- The source offers the same. -/
structure SameOffer (source other : Source) : Prop where
  order : other.order = source.order
  next : other.next = source.next
  more : other.more = source.more
  cursor : other.cursor = source.cursor
  snapshot : other.snapshot = source.snapshot
  awaiting : other.awaitingCheck = source.awaitingCheck

/-- The session is at the same page. -/
structure SamePage (s t : Session R) : Prop where
  waitingPage : t.pull.waitingPage = s.pull.waitingPage
  position : t.pull.position = s.pull.position
  more : t.pull.more = s.pull.more
  after : t.pull.after = s.pull.after
  keys : t.pull.keys = s.pull.keys
  synchronizing : t.progress.synchronizing = s.progress.synchronizing
  total : t.progress.incoming.totalRecords = s.progress.incoming.totalRecords
  held : ∀ key, s.localSnapshot.contains key → t.localSnapshot.contains key

lemma Stocked.congr {other : Source} (h : Stocked source) (hoffer : SameOffer source other) :
    Stocked other := by
  constructor
  · rw [hoffer.order]
    exact h.nodup
  · rw [hoffer.order]
    exact h.total
  · rw [hoffer.order, hoffer.next]
    exact h.next
  · rw [hoffer.more, hoffer.order, hoffer.next]
    exact h.more
  · rw [hoffer.more, hoffer.cursor]
    exact h.cursor
  · rw [hoffer.order, hoffer.snapshot]
    exact h.held

lemma Paging.update {t : Session R} {other : Source} (h : Paging terms s source)
    (hoffer : SameOffer source other) (hpage : SamePage s t)
    (hrecords : ∀ key ∈ t.pull.records, key ∈ s.pull.records)
    (hblobs : ∀ object ∈ t.pull.blobs, object ∈ s.pull.blobs ∨ object.record ∈ s.pull.keys ∧
      ∃ hash, object.blob = some hash ∧ terms.linked object.record hash) :
    Paging terms t other where
  stocked := h.stocked.congr hoffer
  awaiting := hoffer.awaiting.trans h.awaiting
  turned := hpage.waitingPage.trans h.turned
  synchronizing := hpage.synchronizing.trans h.synchronizing
  position := hpage.position.trans (h.position.trans hoffer.next.symm)
  more := hpage.more.trans (h.more.trans hoffer.more.symm)
  after := hpage.after.trans (h.after.trans hoffer.cursor.symm)
  total := by
    rw [hpage.total, hoffer.order]
    exact h.total
  keys := by
    rw [hpage.keys, hoffer.order]
    exact h.keys
  records key hkey := by
    rw [hoffer.order]
    exact h.records key (hrecords key hkey)
  blobs object hobject := by
    rw [hpage.keys]
    rcases hblobs object hobject with hold | hnew
    · exact h.blobs object hold
    · exact hnew

/-- The work does not depend on what the source counts and transfers. -/
lemma Working.frame {current sent sent' : Option Object} {other : Source}
    (h : Working terms current sent s source) (hoffer : SameOffer source other)
    (hunacked : ∀ object, object ∈ other.unacked ↔
      object ∈ s.pull.staged.map stagedObject ∨ sent' = some object) :
    Working terms current sent' s other where
  toPaging := h.toPaging.update hoffer ⟨rfl, rfl, rfl, rfl, rfl, rfl, rfl, fun _ hheld => hheld⟩
    (fun _ hkey => hkey) fun _ hobject => .inl hobject
  wanted := by
    rw [hoffer.order]
    exact h.wanted
  distinct := h.distinct
  load := h.load
  content := h.content
  unacked := hunacked
  derived := h.derived
  stagedBytes := h.stagedBytes
  batch := h.batch
  kept := h.kept

/-- A chunk of the active object is sent. -/
lemma agreed_sendChunk {download : Download} {bytes : Bytes}
    (hdownload : s.pull.download = some download)
    (hworking : Working terms (some download.object) none s source)
    (hactive : source.active = some (download.object, bytes, download.bytes.length))
    (hoffers : Offers terms download.object bytes)
    (hdone : download.bytes = bytes.take download.bytes.length)
    (hbounded : download.bytes.length ≤ bytes.length)
    (htotal : download.total.any (fun previous => decide (previous ≠ bytes.length)) = false) :
    wp (Source.sendChunk download.object download.bytes.length)
      (fun reply source' => source'.snapshot = source.snapshot ∧ Agreed terms s source' [] [reply])
      (fun _ _ => False) source := by
  have hsmall : ¬ 2 ^ 32 ≤ bytes.length := by
    have hlimit := hoffers.short
    unfold maxObjectBytes at hlimit
    omega
  unfold Source.sendChunk
  rw [wp_bind, wp_get, hactive]
  dsimp only
  rw [wp_guard]
  refine ⟨fun hwrong => by simp at hwrong, fun _ => ?_⟩
  rw [wp_guard]
  refine ⟨fun hlong => absurd hlong hsmall, fun _ => ?_⟩
  rw [wp_guard]
  refine ⟨fun hpast => absurd hpast (by omega), fun _ => ?_⟩
  rw [wp_bind, wp_set, wp_pure]
  refine ⟨?_, .sending download hdownload bytes hoffers hdone hbounded htotal _ rfl ?_⟩
  · unfold Source.advanced
    split
    · rfl
    · rfl
  unfold Source.advanced
  split
  · refine ⟨hworking.frame ⟨rfl, rfl, rfl, rfl, rfl, rfl⟩ ?_, rfl⟩
    intro object
    show object ∈ insert download.object source.unacked ↔ _
    rw [Finset.mem_insert, hworking.unacked, Option.some.injEq]
    constructor
    · rintro (rfl | hstaged | hnone)
      · exact .inr rfl
      · exact .inl hstaged
      · cases hnone
    · rintro (hstaged | rfl)
      · exact .inr (.inl hstaged)
      · exact .inl rfl
  · exact ⟨hworking.frame ⟨rfl, rfl, rfl, rfl, rfl, rfl⟩ hworking.unacked, rfl⟩

/-- An object in transfer is not one of those to be acknowledged. -/
lemma Working.fresh {object : Object} (h : Working terms (some object) none s source) :
    object ∉ source.unacked ∧ source.unacked.card < inventoryPage := by
  have hset : source.unacked = (s.pull.staged.map stagedObject).toFinset := by
    ext other
    rw [h.unacked, List.mem_toFinset]
    simp
  constructor
  · rw [hset, List.mem_toFinset]
    intro hmem
    have hdistinct := h.distinct
    rw [List.append_assoc, List.nodup_append] at hdistinct
    exact hdistinct.2.2 object hmem object (by simp) rfl
  · have hcard := List.toFinset_card_le (s.pull.staged.map stagedObject)
    have hload := h.load
    rw [hset]
    rw [List.length_map] at hcard
    simp only [Option.toList_some, List.length_singleton] at hload
    omega

lemma RecordKey.length_of_fromEncoded {bytes : Bytes} {key : RecordKey}
    (h : RecordKey.fromEncoded bytes = .ok key) : bytes.length ≤ maxObjectBytes := by
  unfold RecordKey.fromEncoded at h
  by_contra hlong
  rw [if_pos (by omega)] at h
  cases h

section Storage

variable [ReplicationStorage S] {space : String} {good : S → Option Snapshot → Snapshot → Prop}

/-- A request for a part of an object is answered. -/
lemma agreed_need (hr : Reliable space terms good) {r : S} {held : Snapshot}
    (hgood : good r source.snapshot held)
    {download : Download} (hdownload : s.pull.download = some download)
    (hworking : Working terms (some download.object) none s source)
    (hpartway : Partway terms download source) :
    wp (Source.need download.object download.bytes.length)
      (fun reply p => good p.2 p.1.snapshot held ∧ Agreed terms s p.1 [] [reply])
      (fun _ _ => False) (source, r) := by
  obtain ⟨hnew, hfew⟩ := hworking.fresh
  obtain ⟨snapshot, encoded, hsnapshot, hrecord⟩ :=
    hworking.stocked.held _ (hworking.wanted _ rfl)
  unfold Source.need
  rw [wp_bind, wp_get, wp_guard]
  refine ⟨fun hnot => absurd hworking.awaiting hnot, fun _ => ?_⟩
  rcases hpartway with ⟨hfresh, hactive⟩ | ⟨bytes, hactive, hoffers, hpos, hlt, htotal, hdone⟩
  · have hbytes : download.bytes = [] := by
      rw [hfresh]
      rfl
    -- the object is loaded, and its first chunk is sent
    have hsend : ∀ bytes (r' : S), good r' source.snapshot held →
        Offers terms download.object bytes →
        wp (do
            Source.onSource (modify fun source =>
              { source with active := some (download.object, bytes, 0) })
            Source.onSource (Source.sendChunk download.object download.bytes.length))
          (fun reply (p : Source × S) =>
            good p.2 p.1.snapshot held ∧ Agreed terms s p.1 [] [reply])
          (fun _ _ => False) (source, r') := by
      intro bytes r' hgood' hoffers
      unfold Source.onSource
      rw [wp_bind, wp_zoom, wp_modify, wp_zoom]
      have hworking' : Working terms (some download.object) none s
          { source with active := some (download.object, bytes, 0) } :=
        hworking.frame ⟨rfl, rfl, rfl, rfl, rfl, rfl⟩ hworking.unacked
      apply wp_weaken (agreed_sendChunk hdownload hworking' (by rw [hbytes]; rfl) hoffers
        (by rw [hbytes]; rfl) (by rw [hbytes]; exact Nat.zero_le _) (by rw [hfresh]; rfl))
      rintro reply source' ⟨hsame, hagreed⟩
      refine ⟨?_, hagreed⟩
      rw [hsame]
      exact hgood'
    rw [if_pos (by rw [hbytes]; rfl), wp_guard]
    refine ⟨?_, fun _ => ?_⟩
    · rintro (hsome | hmany | hmem)
      · rw [hactive] at hsome
        cases hsome
      · exact absurd hmany (Nat.not_le_of_lt hfew)
      · exact hnew hmem
    · unfold Source.load
      rw [wp_bind, wp_bind, wp_get]
      dsimp only
      rw [hsnapshot]
      dsimp only
      rw [hrecord]
      dsimp only
      cases hblob : download.object.blob with
      | none =>
        dsimp only
        rw [wp_pure]
        have hderived := snapshot.derived _ _ hrecord
        have hobject : download.object = ⟨download.object.record, none⟩ := by
          rw [← hblob]
        rw [hsnapshot] at hgood
        have hauthentic := hr.offers hgood hrecord
        rw [← hsnapshot] at hgood
        refine hsend encoded r hgood ⟨RecordKey.length_of_fromEncoded hderived, ?_,
          fun _ => hderived⟩
        rw [hobject]
        exact hauthentic
      | some hash =>
        dsimp only
        have hobject : download.object = ⟨download.object.record, some hash⟩ := by
          rw [← hblob]
        obtain ⟨-, -, -, hlinked⟩ := hworking.content _ hash rfl hblob
        unfold Source.onStorage
        rw [wp_zoom]
        rw [hsnapshot] at hgood
        apply wp_weaken (hr.readBlob hgood (Snapshot.contains_iff.mpr ⟨encoded, hrecord⟩) hlinked)
        rintro content r' ⟨hgood', hcontent⟩
        rw [← hsnapshot] at hgood'
        cases content with
        | none =>
          dsimp only
          unfold Source.onSource
          rw [wp_bind, wp_zoom, wp_modify, wp_pure]
          refine ⟨hgood', ?_⟩
          rw [← hblob]
          exact .absent download hdownload
            (hworking.frame ⟨rfl, rfl, rfl, rfl, rfl, rfl⟩ hworking.unacked) hactive hbytes
            (by rw [hblob]; rfl)
        | some bytes =>
          obtain ⟨hshort, hauthentic⟩ := hcontent bytes rfl
          refine hsend bytes r' hgood' ⟨hshort, ?_, fun hnone => ?_⟩
          · rw [hobject]
            exact hauthentic
          · rw [hblob] at hnone
            cases hnone
  · have hne : download.bytes.length ≠ 0 := by omega
    rw [if_neg hne]
    unfold Source.onSource
    rw [wp_zoom]
    apply wp_weaken (agreed_sendChunk hdownload hworking hactive hoffers hdone (by omega) _)
    · rintro reply source' ⟨hsame, hagreed⟩
      refine ⟨?_, hagreed⟩
      rw [hsame]
      exact hgood
    · rw [htotal]
      simp

/-- The next page of a source is offered. -/
lemma agreed_offered (hnodup : source.order.Nodup) (htotal : source.order.length ≤ maxTotal)
    (hnext : source.next ≤ source.order.length)
    (hheld : ∀ key ∈ source.order, ∃ snapshot bytes, source.snapshot = some snapshot ∧
      snapshot.record key = some bytes)
    (hactive : source.active = none) (hunacked : source.unacked = ∅)
    (hwaiting : s.pull.waitingPage = true) (hsynchronizing : s.progress.synchronizing = true)
    (hfree : s.pull.download = none) (hstaged : s.pull.staged = [])
    (hbytes : s.pull.stagedBytes = 0) (hblobs : s.pull.blobs = [])
    (hposition : s.pull.position = source.next)
    (hbefore : s.progress.incoming.totalRecords.any
      (fun before => decide (before ≠ source.order.length)) = false) :
    Agreed terms s source.offered [] [source.nextPage] := by
  have hsubset : ∀ key ∈ source.nextRecords, key ∈ source.order := by
    intro key hkey
    exact List.mem_of_mem_drop (List.mem_of_mem_take hkey)
  have hlength : source.nextRecords.length
      = min inventoryPage (source.order.length - source.next) := by
    unfold Source.nextRecords
    rw [List.length_take, List.length_drop]
  have hpage : 0 < inventoryPage := by decide
  have hnonempty : source.offered.more = true → source.nextRecords ≠ [] := by
    intro hmore hempty
    have hlt : source.next + source.nextRecords.length < source.order.length := by
      simpa [Source.offered] using hmore
    rw [hempty, List.length_nil] at hlength hlt
    omega
  have hstocked : Stocked source.offered := by
    refine ⟨hnodup, htotal, ?_, rfl, ?_, hheld⟩
    · show source.next + source.nextRecords.length ≤ source.order.length
      rw [hlength]
      omega
    · intro hmore hnone
      exact hnonempty hmore (List.getLast?_eq_none_iff.mp hnone)
  have hmessage : source.nextPage = .page s.pull.position source.offered.order.length
      source.nextRecords source.offered.more := by
    rw [hposition]
    rfl
  rw [hmessage]
  refine .offered hstocked hactive hunacked rfl hwaiting hsynchronizing hfree hstaged hbytes hblobs
    source.nextRecords ?_ ?_ hsubset ?_ hnonempty rfl hbefore
  · exact (hnodup.sublist (List.drop_sublist _ _)).sublist (List.take_sublist _ _)
  · rw [hlength]
    exact Nat.min_le_left _ _
  · rw [hposition]
    rfl

/-- A request for a page is answered. -/
lemma agreed_inventory (hr : Reliable space terms good) {r : S} {held : Snapshot}
    (hgood : good r source.snapshot held) {after : Option RecordKey}
    (h : Agreed terms s source [.inventory after] []) :
    wp (Source.inventory after)
      (fun reply p => good p.2 p.1.snapshot held ∧ Agreed terms s p.1 [] [reply])
      (fun _ _ => False) (source, r) := by
  have hclean : Clean source := by
    cases h with
    | first clean => exact clean
    | next clean => exact clean
  unfold Source.inventory
  rw [wp_bind, wp_get, wp_guard]
  constructor
  · rintro (hsome | hne | hcheck)
    · rw [hclean.active] at hsome
      cases hsome
    · exact absurd hclean.unacked hne
    · rw [hclean.awaiting] at hcheck
      cases hcheck
  · intro _
    unfold Source.locate
    rw [wp_bind, wp_bind, wp_get]
    cases h with
    | first clean waiting synchronizing free total =>
      rw [if_pos Option.isNone_none]
      unfold Source.freeze Source.onStorage Source.onSource
      rw [wp_bind, wp_zoom]
      apply wp_weaken (hr.snapshot hgood)
      intro snapshot r' hsnapshot
      obtain ⟨order, horder, hperm⟩ := snapshot.orderedKeys_perm
      rw [wp_bind, wp_lift]
      refine ⟨fun order' horder' => ?_, fun e he => by rw [horder] at he; cases he⟩
      rw [horder] at horder'
      cases horder'
      rw [wp_zoom, wp_modify, wp_bind, wp_get, wp_bind, wp_zoom, wp_set, wp_pure]
      refine ⟨hsnapshot.1, ?_⟩
      have hkeys : order.length = snapshot.len := by
        rw [hperm.length_eq]
        exact Std.ExtTreeMap.length_keys
      apply agreed_offered
      · exact hperm.nodup_iff.mpr Std.ExtTreeMap.nodup_keys
      · show order.length ≤ maxTotal
        rw [hkeys]
        exact hsnapshot.2
      · exact Nat.zero_le _
      · intro key hkey
        have hmem : key ∈ snapshot.records.keys := hperm.mem_iff.mp hkey
        rw [Std.ExtTreeMap.mem_keys, ← Std.ExtTreeMap.contains_iff_mem] at hmem
        obtain ⟨bytes, hbytes⟩ := Snapshot.contains_iff.mp hmem
        exact ⟨snapshot, bytes, rfl, hbytes⟩
      · exact clean.active
      · exact clean.unacked
      · exact waiting
      · exact synchronizing
      · rw [free]
      · rw [free]
      · rw [free]
      · rw [free]
      · rw [free]
      · rw [total]
        rfl
    | next clean waiting synchronizing free staged stagedBytes blobs position more total =>
      have hstocked := clean.stocked
      have hcursor := hstocked.cursor more
      have hsome : ¬ source.cursor.isNone = true := by
        rw [Option.isNone_iff_eq_none]
        exact hcursor
      rw [if_neg hsome, if_neg (by simp [more])]
      rw [wp_pure, wp_bind, wp_get, wp_bind]
      unfold Source.onSource
      rw [wp_zoom, wp_set, wp_pure]
      refine ⟨hgood, ?_⟩
      apply agreed_offered hstocked.nodup hstocked.total hstocked.next hstocked.held clean.active
        clean.unacked waiting synchronizing free staged stagedBytes blobs position
      rw [total]
      simp

end Storage

/-! ## The pulling side -/

section Pulling

variable [ReplicationStorage R] {space : String} {good : R → Option Snapshot → Snapshot → Prop}
  {first : Source} {replies : List Message}

/-- The replies so far settle with the source, which then agrees with the work of the session. -/
structure Progressed (terms : Terms) (current sent : Option Object) (first : Source)
    (replies : List Message) (s : Session R) (source : Source) : Prop where
  settles : Settles first replies source
  working : Working terms current sent s source
  active : source.active = none

omit [ReplicationStorage R] in
/-- A batch that a session has staged is valid. -/
lemma Working.validate {current sent : Option Object} (h : Working terms current sent s source) :
    validateRecords s.pull.staged = .ok () := by
  have hlength : s.pull.staged.length ≤ inventoryPage := by
    have hload := h.load
    omega
  exact validateRecords_of_limits hlength (h.stagedBytes ▸ h.batch)
    fun record hrecord => (h.derived record hrecord).1

/-- Flushing settles the staged records with the source. -/
lemma accord_flush (hr : Reliable space terms good) (hgood : s.Good good)
    {current sent : Option Object} (hsent : sent = none ∨ sent = current)
    (h : Progressed terms current sent first replies s source) :
    wp (Session.flush replies)
      (fun r t => t.Good good ∧ t.pull.staged = [] ∧ t.pull.records = s.pull.records ∧
        t.pull.blobs = s.pull.blobs ∧ t.pull.download = s.pull.download ∧
        ∃ source', Progressed terms current sent first r t source')
      (fun _ _ => False) s := by
  have hw := h.working
  unfold Session.flush
  rw [wp_bind, wp_get, wp_ite]
  constructor
  · intro hempty
    exact ⟨hgood, hempty, rfl, rfl, rfl, source, h⟩
  · intro _
    rw [wp_bind]
    unfold Session.onLocal
    rw [wp_zoom]
    apply wp_weaken (hr.ingestRecords hgood hw.validate
      fun record hrecord => (hw.derived record hrecord).2)
    rintro _ p ⟨hp, hcontains⟩
    rw [wp_bind, wp_modify, wp_pure]
    refine ⟨hp, rfl, rfl, rfl, rfl, ?_⟩
    have hdistinct := hw.distinct
    rw [List.append_assoc, List.nodup_append] at hdistinct
    have hacks := settles_acks
      (fun object hobject => (hw.unacked object).mpr (.inl hobject)) hdistinct.1
    refine ⟨{ source with unacked := source.unacked \
      (s.pull.staged.map stagedObject).toFinset }, ?_,
      ⟨?_, hw.wanted, ?_, ?_, ?_, ?_, ?_, ?_, ?_, ?_⟩, h.active⟩
    · have hsettles := h.settles.append hacks
      rwa [List.map_map] at hsettles
    · exact hw.toPaging.update ⟨rfl, rfl, rfl, rfl, rfl, rfl⟩
        ⟨rfl, rfl, rfl, rfl, rfl, rfl, rfl, fun key hheld => hcontains key (.inl hheld)⟩
        (fun _ hkey => hkey) fun _ hobject => .inl hobject
    · exact hdistinct.2.1
    · have hload := hw.load
      show 0 + s.pull.records.length + _ ≤ _
      omega
    · intro object hash hcurrent hblob
      exact ⟨rfl, (hw.content object hash hcurrent hblob).2⟩
    · intro object
      show object ∈ source.unacked \ _ ↔ object ∈ [] ∨ _
      rw [Finset.mem_sdiff, hw.unacked, List.mem_toFinset]
      constructor
      · rintro ⟨hstaged | hlast, hnot⟩
        · exact absurd hstaged hnot
        · exact .inr hlast
      · rintro (hnone | hlast)
        · cases hnone
        · refine ⟨.inr hlast, fun hstaged => ?_⟩
          -- the object in transfer is not staged
          rcases hsent with hnone | hcurrent
          · rw [hnone] at hlast
            cases hlast
          · rw [hlast] at hcurrent
            exact hdistinct.2.2 object hstaged object (by simp [← hcurrent]) rfl
    · intro record hrecord
      cases hrecord
    · rfl
    · exact Nat.zero_le _
    · intro key hkey
      rcases hw.kept key hkey with hheld | hstaged | hrest
      · exact .inl (hcontains key (.inl hheld))
      · exact .inl (hcontains key (.inr hstaged))
      · exact .inr (.inr hrest)

omit [ReplicationStorage R] in
/-- The session changes where the work does not see it. -/
lemma Working.congr {current sent : Option Object} {t : Session R}
    (h : Working terms current sent s source) (hpage : SamePage s t)
    (hstaged : t.pull.staged = s.pull.staged) (hbytes : t.pull.stagedBytes = s.pull.stagedBytes)
    (hrecords : t.pull.records = s.pull.records)
    (hblobs : ∀ object ∈ t.pull.blobs, object ∈ s.pull.blobs ∨ object.record ∈ s.pull.keys ∧
      ∃ hash, object.blob = some hash ∧ terms.linked object.record hash) :
    Working terms current sent t source where
  toPaging := h.toPaging.update ⟨rfl, rfl, rfl, rfl, rfl, rfl⟩ hpage
    (fun key hkey => by rwa [hrecords] at hkey) hblobs
  wanted := h.wanted
  distinct := by
    rw [hstaged, hrecords]
    exact h.distinct
  load := by
    rw [hstaged, hrecords]
    exact h.load
  content := by
    rw [hstaged, hrecords, hpage.keys]
    exact h.content
  unacked := by
    rw [hstaged]
    exact h.unacked
  derived := by
    rw [hstaged]
    exact h.derived
  stagedBytes := by
    rw [hstaged, hbytes]
    exact h.stagedBytes
  batch := by
    rw [hbytes]
    exact h.batch
  kept := by
    rw [hstaged, hrecords, hpage.keys]
    exact fun key hkey => (h.kept key hkey).imp_left (hpage.held key)

lemma accord_flushIf (limit : Prop) [Decidable limit] (hr : Reliable space terms good)
    (hgood : s.Good good) {current sent : Option Object} (hsent : sent = none ∨ sent = current)
    (h : Progressed terms current sent first replies s source) :
    wp (Session.flushIf limit replies)
      (fun r t => t.Good good ∧ (limit → t.pull.staged = []) ∧
        (¬ limit → t.pull.stagedBytes = s.pull.stagedBytes) ∧
        t.pull.download = s.pull.download ∧
        ∃ source', Progressed terms current sent first r t source')
      (fun _ _ => False) s := by
  unfold Session.flushIf
  rw [wp_ite]
  constructor
  · intro hlimit
    apply wp_weaken (accord_flush hr hgood hsent h)
    intro r t ht
    exact ⟨ht.1, fun _ => ht.2.1, fun hnot => absurd hlimit hnot, ht.2.2.2.2.1, ht.2.2.2.2.2⟩
  · intro hlimit
    exact ⟨hgood, fun hyes => absurd hyes hlimit, fun _ => rfl, rfl, source, h⟩

omit [ReplicationStorage R] in
/-- When no record is on its way, all records of the page are held. -/
lemma Working.held {current sent : Option Object} (h : Working terms current sent s source)
    (hstaged : s.pull.staged = []) (hrecords : s.pull.records = [])
    (hcurrent : ∀ key, current ≠ some ⟨key, none⟩) :
    ∀ key ∈ s.pull.keys, s.localSnapshot.contains key := by
  intro key hkey
  rcases h.kept key hkey with hheld | hwaiting | hqueued | htransfer
  · exact hheld
  · rw [hstaged] at hwaiting
    cases hwaiting
  · rw [hrecords] at hqueued
    cases hqueued
  · exact absurd htransfer (hcurrent key)

/-- Content that has arrived is published and acknowledged. -/
lemma accord_completeBlob (hr : Reliable space terms good) (hgood : s.Good good)
    {download : Download} {hash : Digest} (hblob : download.object.blob = some hash)
    (hauthentic : terms.authentic ⟨download.object.record, some hash⟩ download.bytes)
    (h : Progressed terms (some download.object) (some download.object) first replies s source) :
    wp (Session.completeBlob download hash replies)
      (fun r t => t.Good good ∧ t.pull.download = s.pull.download ∧
        ∃ source', Progressed terms none none first r t source')
      (fun _ _ => False) s := by
  have hw := h.working
  obtain ⟨hstaged, hrecords, hpage, hlinked⟩ := hw.content _ hash rfl hblob
  have hblobless : ∀ key, some download.object ≠ some ⟨key, none⟩ := by
    intro key hcurrent
    rw [Option.some.inj hcurrent] at hblob
    cases hblob
  have hheld := hw.held hstaged hrecords hblobless _ hpage
  unfold Session.completeBlob Session.onReplica
  rw [wp_bind, wp_zoom]
  apply wp_weaken (hr.ingestBlob hgood hheld hlinked hauthentic)
  intro _ r hr'
  rw [wp_bind, wp_modify, wp_pure]
  have hmem : download.object ∈ source.unacked := (hw.unacked _).mpr (.inr rfl)
  refine ⟨hr', rfl, { source with unacked := source.unacked.erase download.object },
    h.settles.append (settles_ack hmem), ⟨?_, ?_, ?_, ?_, ?_, ?_, hw.derived, hw.stagedBytes,
      hw.batch, ?_⟩, h.active⟩
  · exact hw.toPaging.update ⟨rfl, rfl, rfl, rfl, rfl, rfl⟩
      ⟨rfl, rfl, rfl, rfl, rfl, rfl, rfl, fun _ hheld => hheld⟩
      (fun _ hkey => hkey) fun _ hobject => .inl hobject
  · intro object hnone
    cases hnone
  · show (s.pull.staged.map stagedObject ++ [] ++ s.pull.records.map _).Nodup
    rw [hstaged, hrecords]
    exact .nil
  · show s.pull.staged.length + s.pull.records.length + 0 ≤ _
    rw [hstaged, hrecords]
    exact Nat.zero_le _
  · intro object _ hnone
    cases hnone
  · intro object
    show object ∈ source.unacked.erase download.object ↔ object ∈ s.pull.staged.map _ ∨ _
    rw [Finset.mem_erase, hw.unacked, hstaged]
    constructor
    · rintro ⟨hne, hnone | hsame⟩
      · cases hnone
      · exact absurd (Option.some.inj hsame).symm hne
    · rintro (hnone | hnone)
      · cases hnone
      · cases hnone
  · intro key hkey
    exact .inl (hw.held hstaged hrecords hblobless key hkey)

omit [ReplicationStorage R] in
/-- A record that has arrived is staged, and the batch stays valid. -/
lemma accord_stage {object : Object} {bytes : Bytes}
    (h : Working terms (some object) (some object) s source) (hrecord : object.blob = none)
    (hderived : RecordKey.fromEncoded bytes = .ok object.record)
    (hauthentic : terms.authentic ⟨object.record, none⟩ bytes)
    (hroom : s.pull.stagedBytes + bytes.length ≤ maxObjectBytes) :
    Working terms none none (s.stage object.record bytes) source := by
  have hobject : stagedObject (object.record, bytes) = object := by
    unfold stagedObject
    rw [← hrecord]
  have hsum : saturatingAdd s.pull.stagedBytes bytes.length
      = s.pull.stagedBytes + bytes.length := by
    unfold saturatingAdd u64Max
    unfold maxObjectBytes at hroom
    omega
  refine ⟨?_, ?_, ?_, ?_, ?_, ?_, ?_, ?_, ?_, ?_⟩
  · exact h.toPaging.update ⟨rfl, rfl, rfl, rfl, rfl, rfl⟩
      ⟨rfl, rfl, rfl, rfl, rfl, rfl, rfl, fun _ hheld => hheld⟩
      (fun _ hkey => hkey) fun _ hobject => .inl hobject
  · intro other hnone
    cases hnone
  · have hdistinct := h.distinct
    show ((s.pull.staged ++ [(object.record, bytes)]).map stagedObject ++ []
      ++ s.pull.records.map _).Nodup
    rw [List.map_append, List.map_singleton, hobject, List.append_nil]
    exact hdistinct
  · have hload := h.load
    show (s.pull.staged ++ [_]).length + s.pull.records.length + 0 ≤ _
    simp only [Option.toList_some, List.length_singleton] at hload
    rw [List.length_append, List.length_singleton]
    omega
  · intro other _ hnone
    cases hnone
  · intro other
    show other ∈ source.unacked ↔
      other ∈ (s.pull.staged ++ [(object.record, bytes)]).map stagedObject ∨ _
    rw [h.unacked, List.map_append, List.map_singleton, hobject, List.mem_append,
      List.mem_singleton, Option.some.injEq]
    constructor
    · rintro (hstaged | hlast)
      · exact .inl (.inl hstaged)
      · exact .inl (.inr hlast.symm)
    · rintro ((hstaged | hlast) | hnone)
      · exact .inl hstaged
      · exact .inr hlast.symm
      · cases hnone
  · intro record hmem
    rcases List.mem_append.mp hmem with hold | hnew
    · exact h.derived record hold
    · rw [List.mem_singleton.mp hnew]
      exact ⟨hderived, hauthentic⟩
  · show saturatingAdd s.pull.stagedBytes bytes.length
      = ((s.pull.staged ++ [(object.record, bytes)]).map fun record => record.2.length).sum
    rw [hsum, h.stagedBytes, List.map_append, List.sum_append]
    simp
  · show saturatingAdd s.pull.stagedBytes bytes.length ≤ maxObjectBytes
    rw [hsum]
    exact hroom
  · intro key hkey
    show _ ∨ key ∈ (s.pull.staged ++ [(object.record, bytes)]).map Prod.fst ∨ _
    rw [List.map_append, List.mem_append]
    rcases h.kept key hkey with hheld | hstaged | hqueued | htransfer
    · exact .inl hheld
    · exact .inr (.inl (.inl hstaged))
    · exact .inr (.inr (.inl hqueued))
    · refine .inr (.inl (.inr ?_))
      rw [Option.some.inj htransfer]
      exact List.mem_singleton_self _

/-- An object that has arrived is published or staged. -/
lemma accord_complete (hr : Reliable space terms good) (hgood : s.Good good)
    {download : Download} (hdownload : s.pull.download = some download)
    (hoffers : Offers terms download.object download.bytes)
    (h : Progressed terms (some download.object) (some download.object) first [] s source) :
    wp (Session.complete [])
      (fun r t => t.Good good ∧ t.pull.download = none ∧
        ∃ source', Progressed terms none none first r t source')
      (fun _ _ => False) s := by
  have htaken : Progressed terms (some download.object) (some download.object) first []
      s.takeDownload source :=
    ⟨h.settles, h.working.congr ⟨rfl, rfl, rfl, rfl, rfl, rfl, rfl, fun _ hheld => hheld⟩ rfl rfl
      rfl (fun _ hobject => .inl hobject), h.active⟩
  have hkept : s.takeDownload.Good good := hgood
  unfold Session.complete
  rw [wp_bind, wp_get, hdownload]
  dsimp only
  rw [wp_bind, wp_modify]
  have hauthentic := hoffers.authentic
  cases hblob : download.object.blob with
  | some hash =>
    have hobject : download.object = ⟨download.object.record, some hash⟩ := by
      rw [← hblob]
    rw [hobject] at hauthentic
    exact accord_completeBlob hr hkept hblob hauthentic htaken
  | none =>
    have hcontent := hoffers.derived hblob
    have hobject : download.object = ⟨download.object.record, none⟩ := by
      rw [← hblob]
    rw [hobject] at hauthentic
    dsimp only
    unfold Session.completeRecord
    rw [wp_bind, wp_lift, hcontent]
    refine ⟨fun key hkey => ?_, fun e he => by cases he⟩
    cases hkey
    rw [wp_guard]
    refine ⟨fun hne => absurd rfl hne, fun _ => ?_⟩
    rw [wp_bind, wp_get, wp_bind]
    apply wp_weaken (accord_flushIf _ hr hkept (.inr rfl) htaken)
    intro r t ht
    obtain ⟨hgood', hflushed, hsame, hfree, source', hprogressed⟩ := ht
    have hroom : t.pull.stagedBytes + download.bytes.length ≤ maxObjectBytes := by
      have hlength := hoffers.short
      by_cases hlimit : maxObjectBytes < saturatingAdd s.takeDownload.pull.stagedBytes
          download.bytes.length
      · have hzero := hprogressed.working.stagedBytes
        rw [hflushed hlimit] at hzero
        simp only [List.map_nil, List.sum_nil] at hzero
        omega
      · have hbatch := htaken.working.batch
        rw [hsame hlimit]
        unfold saturatingAdd u64Max maxObjectBytes at *
        omega
    rw [wp_bind, wp_modify, wp_bind, wp_get]
    have hstaged := accord_stage hprogressed.working hblob hcontent hauthentic hroom
    have hkept' : (t.stage download.object.record download.bytes).Good good := hgood'
    apply wp_weaken (accord_flushIf _ hr hkept' (.inl rfl)
      ⟨hprogressed.settles, hstaged, hprogressed.active⟩)
    intro r' u hu
    exact ⟨hu.1, hu.2.2.2.1.trans hfree, hu.2.2.2.2⟩

/-- A session that searches the content of a page whose records are durable. -/
structure Searching (terms : Terms) (good : R → Option Snapshot → Snapshot → Prop)
    (source : Source) (keys : List RecordKey) (s : Session R) : Prop where
  good : s.Good good
  working : Working terms none none s source
  staged : s.pull.staged = []
  records : s.pull.records = []
  download : s.pull.download = none
  keys : s.pull.keys = keys

omit [ReplicationStorage R] in
lemma Searching.held {keys : List RecordKey} (h : Searching terms good source keys s) :
    ∀ key ∈ keys, s.localSnapshot.contains key := by
  rw [← h.keys]
  exact h.working.held h.staged h.records nofun

lemma accord_findBlob (hr : Reliable space terms good) {keys : List RecordKey}
    {key : RecordKey} (hkey : key ∈ keys) {hash : Digest} (hlinked : terms.linked key hash)
    (h : Searching terms good source keys s) :
    wp (Session.findBlob key hash) (fun _ t => Searching terms good source keys t)
      (fun _ _ => False) s := by
  have hw := h.working
  have hheld := h.held key hkey
  unfold Session.findBlob Session.onReplica
  rw [wp_bind, wp_get, wp_ite]
  constructor
  · intro _
    rw [wp_bind, wp_modify, wp_bind, wp_zoom]
    apply wp_weaken (hr.confirmBlob h.good hheld hlinked)
    intro confirmed r hr'
    rw [wp_ite]
    constructor
    · intro _
      refine ⟨hr', ?_, h.staged, h.records, h.download, h.keys⟩
      refine hw.congr ⟨rfl, rfl, rfl, rfl, rfl, rfl, rfl, fun _ hheld => hheld⟩ rfl rfl rfl ?_
      intro object hobject
      rcases List.mem_append.mp hobject with hold | hnew
      · exact .inl hold
      · rw [List.mem_singleton.mp hnew, h.keys]
        exact .inr ⟨hkey, hash, rfl, hlinked⟩
    · intro _
      exact ⟨hr', hw.congr ⟨rfl, rfl, rfl, rfl, rfl, rfl, rfl, fun _ hheld => hheld⟩ rfl rfl rfl
        (fun _ hobject => .inl hobject), h.staged, h.records, h.download, h.keys⟩
  · intro _
    exact h

lemma accord_searchBlobs (hr : Reliable space terms good) {keys : List RecordKey}
    (h : Searching terms good source keys s) :
    wp Session.searchBlobs (fun _ t => Searching terms good source keys t) (fun _ _ => False)
      s := by
  unfold Session.searchBlobs
  rw [wp_bind, wp_get, wp_ite]
  refine ⟨fun _ => ?_, fun _ => h⟩
  unfold Session.findBlobs
  rw [wp_bind, wp_get, h.keys]
  refine wp_forM keys (fun _ t => Searching terms good source keys t) ?_ h
  intro done key t hdone ht
  have hkey : key ∈ keys := hdone.subset (by simp)
  unfold Session.findKey
  rw [wp_bind, wp_get, wp_bind]
  unfold Session.onReplica
  rw [wp_zoom]
  apply wp_weaken (hr.blobHashes ht.good (ht.held key hkey))
  rintro hashes r ⟨hgood, hfew, hlinked⟩
  rw [wp_guard]
  refine ⟨fun hmany => absurd hmany (Nat.not_lt_of_le hfew), fun _ => ?_⟩
  have hstart : Searching terms good source keys { t with replica := r } :=
    ⟨hgood, ht.working.congr ⟨rfl, rfl, rfl, rfl, rfl, rfl, rfl, fun _ hheld => hheld⟩ rfl rfl rfl
      (fun _ hobject => .inl hobject), ht.staged, ht.records, ht.download, ht.keys⟩
  refine wp_forM hashes.toList (fun _ u => Searching terms good source keys u) ?_ hstart
  intro done' hash u hdone' hu
  have hhash : hash ∈ hashes := by
    rw [← Std.ExtTreeSet.mem_toList]
    exact hdone'.subset (by simp)
  exact accord_findBlob hr hkey (hlinked hash hhash) hu

/-- The outcome of work on a page: notices that settle with the source, and a request with which
both ends agree. -/
def Concluded (terms : Terms) (good : R → Option Snapshot → Snapshot → Prop) (first : Source)
    (replies : List Message) (t : Session R) : Prop :=
  t.Good good ∧ ∃ notices requests source, replies = notices ++ requests ∧
    Settles first notices source ∧ Agreed terms t source requests []

omit [ReplicationStorage R] in
/-- Requesting an object of the page. -/
lemma accord_download (hgood : s.Good good) {object : Object}
    (hsettles : Settles first replies source) (hactive : source.active = none)
    (hw : Working terms (some object) none s source) :
    wp (Session.download object replies) (fun r t => Concluded terms good first r t)
      (fun _ _ => False) s := by
  unfold Session.download
  rw [wp_bind, wp_lift]
  have hneed : object.need 0 = .ok (.need object.record object.blob 0) := by
    unfold Object.need
    rw [if_neg (by norm_num)]
  rw [hneed]
  refine ⟨fun request hrequest => ?_, fun e he => by cases he⟩
  cases hrequest
  rw [wp_bind, wp_modify, wp_pure]
  refine ⟨hgood, replies, [.need object.record object.blob 0], source, rfl, hsettles, ?_⟩
  exact .asking (.new object) rfl (hw.congr
    ⟨rfl, rfl, rfl, rfl, rfl, rfl, rfl, fun _ hheld => hheld⟩ rfl rfl rfl
    (fun _ hobject => .inl hobject)) (.inl ⟨rfl, hactive⟩)

omit [ReplicationStorage R] in
/-- Confirming a page whose content is done. -/
lemma accord_finishPage {keys : List RecordKey} (h : Searching terms good source keys s)
    (hsettles : Settles first replies source) (hactive : source.active = none)
    (hblobs : s.pull.blobs = []) :
    wp (Session.finishPage replies) (fun r t => Concluded terms good first r t)
      (fun _ _ => False) s := by
  have hw := h.working
  have hunacked : source.unacked = ∅ := by
    ext object
    rw [hw.unacked, h.staged]
    simp
  have hchecked := settles_checked hw.awaiting hactive hunacked
  have hconfirmed := hsettles.append hchecked
  have hstocked := hw.stocked
  set last : Source := { source with
    awaitingCheck := false
    progress := { source.progress with
      checkedRecords := source.next, complete := !source.more } } with hlast
  have hclean : Clean last :=
    ⟨⟨hstocked.nodup, hstocked.total, hstocked.next, hstocked.more, hstocked.cursor,
      hstocked.held⟩, hactive, hunacked, rfl⟩
  unfold Session.finishPage
  rw [wp_bind, wp_modify, wp_bind, wp_get, wp_ite]
  constructor
  · intro hmore
    rw [wp_bind, wp_modify, wp_pure]
    refine ⟨h.good, replies ++ [.checked source.next], [.inventory source.cursor], last, ?_,
      hconfirmed, ?_⟩
    · show replies ++ [.checked s.pull.position] ++ [.inventory s.pull.after] = _
      rw [hw.position, hw.after]
    · have hbytes : s.pull.stagedBytes = 0 := by
        rw [hw.stagedBytes, h.staged]
        rfl
      exact .next hclean rfl hw.synchronizing h.download h.staged hbytes hblobs hw.position
        (hw.more.symm.trans hmore) hw.total
  · intro hmore
    rw [wp_bind, wp_modify, wp_pure]
    refine ⟨h.good, replies ++ [.checked source.next], [], last, ?_, hconfirmed, ?_⟩
    · show replies ++ [.checked s.pull.position] = _
      rw [hw.position, List.append_nil]
    · refine .idle hclean ?_ rfl
      rintro (hpage | hobject)
      · exact absurd (hw.turned.symm.trans hpage) Bool.false_ne_true
      · exact hobject h.download

/-- The work on a page goes on until something is asked for, or the page is done. -/
lemma accord_advance (hr : Reliable space terms good) (hgood : s.Good good)
    (hdownload : s.pull.download = none) (h : Progressed terms none none first replies s source) :
    wp (Session.advance replies) (fun r t => Concluded terms good first r t)
      (fun _ _ => False) s := by
  have hw := h.working
  unfold Session.advance
  rw [wp_bind, wp_get]
  cases hrecords : s.pull.records with
  | cons record rest =>
    dsimp only
    rw [wp_bind, wp_modify]
    refine accord_download (s := { s with pull := { s.pull with records := rest } }) hgood
      h.settles h.active ⟨?_, ?_, ?_, ?_, ?_, ?_, hw.derived, hw.stagedBytes, hw.batch, ?_⟩
    · refine hw.toPaging.update ⟨rfl, rfl, rfl, rfl, rfl, rfl⟩
        ⟨rfl, rfl, rfl, rfl, rfl, rfl, rfl, fun _ hheld => hheld⟩
        ?_ fun _ hobject => .inl hobject
      intro key hkey
      rw [hrecords]
      exact List.mem_cons_of_mem _ hkey
    · intro object hobject
      cases hobject
      apply hw.records
      rw [hrecords]
      exact List.mem_cons_self
    · have hdistinct := hw.distinct
      rw [hrecords] at hdistinct
      simpa using hdistinct
    · have hload := hw.load
      rw [hrecords] at hload
      show s.pull.staged.length + rest.length + 1 ≤ _
      simp only [List.length_cons, Option.toList_none, List.length_nil] at hload
      omega
    · intro object hash hobject hblob
      cases hobject
      cases hblob
    · exact hw.unacked
    · intro key hkey
      rcases hw.kept key hkey with hheld | hstaged | hqueued | htransfer
      · exact .inl hheld
      · exact .inr (.inl hstaged)
      · rw [hrecords, List.mem_cons] at hqueued
        rcases hqueued with rfl | hrest
        · exact .inr (.inr (.inr rfl))
        · exact .inr (.inr (.inl hrest))
      · cases htransfer
  | nil =>
    dsimp only
    rw [wp_bind]
    apply wp_weaken (accord_flush hr hgood (.inl rfl) h)
    intro r t ht
    obtain ⟨hgood', hstaged, hsame, hqueue, hfree, source', hprogressed⟩ := ht
    rw [wp_bind]
    have hsearching : Searching terms good source' t.pull.keys t :=
      ⟨hgood', hprogressed.working, hstaged, hsame.trans hrecords, hfree.trans hdownload, rfl⟩
    apply wp_weaken (accord_searchBlobs hr hsearching)
    intro _ u hu
    rw [wp_bind, wp_get]
    have hwu := hu.working
    cases hblobs : u.pull.blobs with
    | nil => exact accord_finishPage hu hprogressed.settles hprogressed.active hblobs
    | cons object rest =>
      have hobject := hwu.blobs object (by rw [hblobs]; exact List.mem_cons_self)
      dsimp only
      rw [wp_bind, wp_modify]
      refine accord_download (s := { u with pull := { u.pull with blobs := rest } }) hu.good
        hprogressed.settles hprogressed.active ⟨?_, ?_, ?_, ?_, ?_, hwu.unacked, hwu.derived,
        hwu.stagedBytes, hwu.batch, ?_⟩
      · refine hwu.toPaging.update ⟨rfl, rfl, rfl, rfl, rfl, rfl⟩
          ⟨rfl, rfl, rfl, rfl, rfl, rfl, rfl, fun _ hheld => hheld⟩ (fun _ hkey => hkey) ?_
        intro other hother
        left
        rw [hblobs]
        exact List.mem_cons_of_mem _ hother
      · intro other hother
        cases hother
        exact hwu.keys _ hobject.1
      · show (u.pull.staged.map stagedObject ++ [object] ++ u.pull.records.map _).Nodup
        rw [hu.staged, hu.records]
        simp
      · show u.pull.staged.length + u.pull.records.length + 1 ≤ _
        rw [hu.staged, hu.records]
        decide
      · intro other hash hother hhash
        cases hother
        obtain ⟨hpage, hash', hblob, hlinked⟩ := hobject
        rw [hblob] at hhash
        cases hhash
        exact ⟨hu.staged, hu.records, hpage, hlinked⟩
      · intro key hkey
        exact .inl (hwu.held hu.staged hu.records nofun key hkey)

/-- An offered page is taken in. -/
lemma accord_page (hr : Reliable space terms good) (hgood : s.Good good)
    {offset total : ℕ} {records : List RecordKey} {more : Bool}
    (h : Agreed terms s source [] [.page offset total records more]) :
    wp (do Session.page offset total records more; Session.advance [])
      (fun r t => Concluded terms good source r t) (fun _ _ => False) s := by
  cases h with
  | offered stocked active unacked awaiting waiting synchronizing free staged stagedBytes blobs
      records nodup short subset position nonempty cursor before =>
    have hnext := stocked.next
    have htotal := stocked.total
    have hmax : maxTotal < u64Max := by decide
    unfold Session.page
    rw [wp_bind, wp_bind, wp_get, wp_guard]
    constructor
    · rintro (hnot | hlong | ⟨hmore, hempty⟩)
      · exact hnot waiting
      · omega
      · exact nonempty hmore hempty
    intro _
    rw [wp_guard]
    constructor
    · rintro (hne | hcard)
      · exact hne rfl
      · exact hcard (List.toFinset_card_of_nodup nodup)
    intro _
    dsimp only
    rw [wp_guard]
    refine ⟨fun hover => by omega, fun _ => ?_⟩
    rw [wp_guard]
    constructor
    · rintro (hlarge | hshort | hmore | hchanged)
      · omega
      · omega
      · rw [position] at hmore
        exact hmore stocked.more
      · rw [before] at hchanged
        cases hchanged
    intro _
    rw [wp_modify]
    have hfilter := List.length_filter_le (fun key => !s.localSnapshot.contains key) records
    refine accord_advance (s := s.turned (s.pull.position + records.length) source.order.length
      records source.more) hr hgood free ⟨.nil source, ⟨⟨stocked, awaiting, rfl, synchronizing,
        position, rfl, cursor.symm, rfl, subset, ?_, ?_⟩, ?_, ?_, ?_, ?_, ?_, ?_, ?_, ?_, ?_⟩,
        active⟩
    · intro key hkey
      exact subset key (List.mem_of_mem_filter hkey)
    · intro object hobject
      have hnone : object ∈ s.pull.blobs := hobject
      rw [blobs] at hnone
      cases hnone
    · intro object hnone
      cases hnone
    · show (s.pull.staged.map stagedObject ++ [] ++ (records.filter _).map _).Nodup
      rw [staged]
      apply List.Nodup.map
      · intro a b hab
        exact (Object.mk.inj hab).1
      · exact nodup.filter _
    · show s.pull.staged.length + (records.filter _).length + 0 ≤ _
      rw [staged, List.length_nil]
      omega
    · intro object _ hnone
      cases hnone
    · intro object
      show object ∈ source.unacked ↔ object ∈ s.pull.staged.map stagedObject ∨ _
      rw [unacked, staged]
      simp
    · show ∀ record ∈ s.pull.staged, _
      rw [staged]
      intro record hrecord
      cases hrecord
    · show s.pull.stagedBytes = (s.pull.staged.map _).sum
      rw [staged, stagedBytes]
      rfl
    · show s.pull.stagedBytes ≤ _
      rw [stagedBytes]
      exact Nat.zero_le _
    · intro key hkey
      by_cases hheld : s.localSnapshot.contains key
      · exact .inl hheld
      · exact .inr (.inr (.inl (List.mem_filter.mpr ⟨hkey, by simp [hheld]⟩)))

omit [Schema Op] [Blake3] [ReplicationStorage R] in
/-- The next chunk of an object is appended. -/
lemma exec_append {download : Download} {bytes part : Bytes}
    (hlength : bytes.length ≤ maxObjectBytes)
    (hbounded : download.bytes.length ≤ bytes.length)
    (htotal : download.total.any (fun previous => decide (previous ≠ bytes.length)) = false)
    (hpart : part = (bytes.drop download.bytes.length).take chunkBytes) :
    (Download.append download.object download.bytes.length bytes.length part).exec download
      = (.ok (decide (download.bytes.length + part.length = bytes.length)),
        { download with total := some bytes.length, bytes := download.bytes ++ part }) := by
  have hmin : part.length = min chunkBytes (bytes.length - download.bytes.length) := by
    rw [hpart, List.length_take, List.length_drop]
  have hchunk : 0 < chunkBytes := by decide
  have hmax : maxObjectBytes < u64Max := by decide
  have hempty : part = [] → download.bytes.length + part.length = bytes.length := by
    intro hnone
    rw [hnone, List.length_nil] at hmin ⊢
    omega
  unfold Download.append
  rw [exec_bind, exec_get]
  dsimp only
  rw [if_neg (by omega)]
  rw [if_neg]
  · rfl
  · rintro (hne | hne | hlong | hchanged | hpast | hbig | ⟨hnone, hne⟩)
    · exact hne rfl
    · exact hne rfl
    · omega
    · rw [htotal] at hchanged
      cases hchanged
    · omega
    · omega
    · exact hne (hempty hnone)

/-- A chunk is taken in. -/
lemma accord_chunk (hr : Reliable space terms good) (hgood : s.Good good)
    {record : RecordKey} {blob : Option Digest} {offset total : ℕ} {part : Bytes}
    (h : Agreed terms s source [] [.chunk record blob offset total part]) :
    wp (Session.chunk ⟨record, blob⟩ offset total part)
      (fun r t => Concluded terms good source r t) (fun _ _ => False) s := by
  cases h with
  | sending download downloading bytes offers done bounded before part hpart working =>
    have hlength := offers.short
    have happend := exec_append hlength bounded before hpart
    have hmin : part.length = min chunkBytes (bytes.length - download.bytes.length) := by
      rw [hpart, List.length_take, List.length_drop]
    have hchunk : 0 < chunkBytes := by decide
    have hbytes : download.bytes ++ part
        = bytes.take (download.bytes.length + part.length) := by
      rw [List.take_add, ← done, hpart]
      congr 1
      rw [List.length_take, List.take_eq_take_iff]
      omega
    unfold Session.chunk
    rw [wp_bind, wp_get, downloading]
    dsimp only
    rw [happend]
    dsimp only
    rw [wp_bind, wp_lift]
    refine ⟨fun finished hfinished => ?_, fun e he => by cases he⟩
    cases hfinished
    rw [wp_bind, wp_modify, wp_ite]
    constructor
    · intro hlast
      have hlast' := of_decide_eq_true hlast
      rw [if_pos hlast'] at working
      have hall : download.bytes ++ part = bytes := by
        rw [hbytes, hlast', List.take_length]
      set later : Download := { download with
        total := some bytes.length, bytes := download.bytes ++ part } with hlater
      have hworking : Progressed terms (some later.object) (some later.object) source []
          { s with pull := { s.pull with download := some later } } source :=
        ⟨.nil source, working.1.congr
          ⟨rfl, rfl, rfl, rfl, rfl, rfl, rfl, fun _ hheld => hheld⟩ rfl rfl rfl
          (fun _ hobject => .inl hobject), working.2⟩
      have hoffers : Offers terms later.object later.bytes := by
        show Offers terms download.object (download.bytes ++ part)
        rw [hall]
        exact offers
      have hkept : Session.Good good
          { s with pull := { s.pull with download := some later } } := hgood
      rw [wp_bind]
      apply wp_weaken (accord_complete hr hkept rfl hoffers hworking)
      intro r t ht
      obtain ⟨hgood', hfree, source', hprogressed⟩ := ht
      exact accord_advance hr hgood' hfree hprogressed
    · intro hlast
      have hlast' : ¬ download.bytes.length + part.length = bytes.length := fun heq =>
        hlast (decide_eq_true heq)
      rw [if_neg hlast'] at working
      have hcount : (download.bytes ++ part).length = download.bytes.length + part.length :=
        List.length_append
      have hsmall : ¬ 2 ^ 32 ≤ (download.bytes ++ part).length := by
        unfold maxObjectBytes at hlength
        omega
      have hneed : download.object.need (download.bytes ++ part).length
          = .ok (.need download.object.record download.object.blob
            (download.bytes ++ part).length) := by
        unfold Object.need
        rw [if_neg hsmall]
      rw [wp_bind, wp_lift, hneed]
      refine ⟨fun request hrequest => ?_, fun e he => by cases he⟩
      cases hrequest
      refine ⟨hgood, [], [_], source, rfl, .nil source, ?_⟩
      refine .asking { download with
        total := some bytes.length, bytes := download.bytes ++ part } rfl
        (working.1.congr ⟨rfl, rfl, rfl, rfl, rfl, rfl, rfl, fun _ hheld => hheld⟩ rfl rfl rfl
          (fun _ hobject => .inl hobject)) (.inr ⟨bytes, ?_, offers, ?_, ?_, rfl, ?_⟩)
      · rw [hcount]
        exact working.2
      · show 0 < (download.bytes ++ part).length
        omega
      · show (download.bytes ++ part).length < bytes.length
        omega
      · show download.bytes ++ part = bytes.take (download.bytes ++ part).length
        rw [hcount]
        exact hbytes

/-- Content that the peer does not have is skipped. -/
lemma accord_missing (hr : Reliable space terms good) (hgood : s.Good good)
    {record : RecordKey} {blob : Option Digest}
    (h : Agreed terms s source [] [.missing record blob]) :
    wp (Session.missing ⟨record, blob⟩)
      (fun r t => Concluded terms good source r t) (fun _ _ => False) s := by
  cases h with
  | absent download downloading working active fresh content =>
    obtain ⟨hash, hblob⟩ := Option.isSome_iff_exists.mp content
    obtain ⟨hstaged, hrecords, -, -⟩ := working.content _ hash rfl hblob
    unfold Session.missing
    rw [wp_bind, wp_get, downloading]
    dsimp only
    rw [wp_bind, wp_modify, wp_guard]
    constructor
    · rintro (hne | hnone | hbytes)
      · exact hne rfl
      · rw [Option.isNone_iff_eq_none] at hnone
        have hsome : download.object.blob.isSome := content
        rw [hnone] at hsome
        cases hsome
      · exact hbytes fresh
    · intro _
      rw [wp_bind, wp_modify]
      refine accord_advance (s := s.takeDownload.withoutContent) hr hgood rfl
        ⟨.nil source, ⟨?_, ?_, ?_, ?_, ?_, working.unacked, working.derived, working.stagedBytes,
          working.batch, ?_⟩, active⟩
      · exact working.toPaging.update ⟨rfl, rfl, rfl, rfl, rfl, rfl⟩
          ⟨rfl, rfl, rfl, rfl, rfl, rfl, rfl, fun _ hheld => hheld⟩ (fun _ hkey => hkey)
          fun _ hobject => .inl hobject
      · intro object hnone
        cases hnone
      · show (s.pull.staged.map stagedObject ++ [] ++ s.pull.records.map _).Nodup
        rw [hstaged, hrecords]
        exact .nil
      · show s.pull.staged.length + s.pull.records.length + 0 ≤ _
        rw [hstaged, hrecords]
        exact Nat.zero_le _
      · intro object _ hnone
        cases hnone
      · intro key hkey
        refine .inl (working.held hstaged hrecords (fun other hcurrent => ?_) key hkey)
        rw [Option.some.inj hcurrent] at hblob
        cases hblob

/-! ### What pulling leaves alone -/

/-- The parts of a session that pulling leaves alone. -/
def pullFrame (s : Session R) : Source × Bool := (s.source, s.progress.accepted)

omit [ReplicationStorage R] in
lemma keeps_pull_onReplica {α : Type} (m : Fallible IoError R α) :
    Keeps pullFrame (Session.onReplica m : Fallible IoError (Session R) α) :=
  fun _ => Session.wp_onReplica_any (fun _ _ => rfl) fun _ _ => rfl

lemma keeps_pull_flush (replies : List Message) :
    Keeps pullFrame (Session.flush replies : Fallible IoError (Session R) _) := by
  unfold Session.flush
  apply keeps_get.bind
  intro session
  apply Keeps.ite
  · intro _
    exact keeps_pure _
  · intro _
    refine Keeps.bind ?_ fun _ => Keeps.bind (keeps_modify fun _ => rfl) fun _ => keeps_pure _
    intro t
    unfold Session.onLocal
    rw [wp_zoom]
    exact wp_of_exec (fun _ _ _ => rfl) fun _ _ _ => rfl

lemma keeps_pull_flushIf (limit : Prop) [Decidable limit] (replies : List Message) :
    Keeps pullFrame (Session.flushIf limit replies : Fallible IoError (Session R) _) :=
  Keeps.ite (fun _ => keeps_pull_flush replies) fun _ => keeps_pure _

lemma keeps_pull_complete (replies : List Message) :
    Keeps pullFrame (Session.complete replies : Fallible IoError (Session R) _) := by
  unfold Session.complete
  apply keeps_get.bind
  intro session
  cases session.pull.download with
  | none => exact keeps_throw _
  | some download =>
    refine Keeps.bind (keeps_modify fun _ => rfl) fun _ => ?_
    cases download.object.blob with
    | some hash =>
      refine Keeps.bind (keeps_pull_onReplica _) fun _ => ?_
      exact Keeps.bind (keeps_modify fun _ => rfl) fun _ => keeps_pure _
    | none =>
      refine Keeps.bind (keeps_lift _) fun _ => Keeps.guard ?_
      refine Keeps.bind keeps_get fun _ => Keeps.bind (keeps_pull_flushIf _ _) fun _ => ?_
      refine Keeps.bind (keeps_modify fun _ => rfl) fun _ => ?_
      exact Keeps.bind keeps_get fun _ => keeps_pull_flushIf _ _

lemma keeps_pull_searchBlobs :
    Keeps pullFrame (Session.searchBlobs : Fallible IoError (Session R) Unit) := by
  refine Keeps.bind keeps_get fun _ => Keeps.ite (fun _ => ?_) fun _ => keeps_pure _
  refine Keeps.bind keeps_get fun _ => keeps_forM (fun key => ?_) _
  refine Keeps.bind keeps_get fun _ => Keeps.bind (keeps_pull_onReplica _) fun hashes => ?_
  refine Keeps.guard (keeps_forM (fun hash => ?_) _)
  refine Keeps.bind keeps_get fun _ => Keeps.ite (fun _ => ?_) fun _ => keeps_pure _
  refine Keeps.bind (keeps_modify fun _ => rfl) fun _ => ?_
  refine Keeps.bind (keeps_pull_onReplica _) fun _ => ?_
  exact Keeps.ite (fun _ => keeps_modify fun _ => rfl) fun _ => keeps_pure _

omit [ReplicationStorage R] in
lemma keeps_pull_download (object : Object) (replies : List Message) :
    Keeps pullFrame (Session.download object replies : Fallible IoError (Session R) _) :=
  Keeps.bind (keeps_lift _) fun _ => Keeps.bind (keeps_modify fun _ => rfl) fun _ => keeps_pure _

lemma keeps_pull_advance (replies : List Message) :
    Keeps pullFrame (Session.advance replies : Fallible IoError (Session R) _) := by
  unfold Session.advance
  apply keeps_get.bind
  intro session
  cases session.pull.records with
  | cons record rest =>
    exact Keeps.bind (keeps_modify fun _ => rfl) fun _ => keeps_pull_download _ _
  | nil =>
    refine Keeps.bind (keeps_pull_flush _) fun replies => ?_
    refine Keeps.bind keeps_pull_searchBlobs fun _ => Keeps.bind keeps_get fun session => ?_
    cases session.pull.blobs with
    | cons object rest =>
      exact Keeps.bind (keeps_modify fun _ => rfl) fun _ => keeps_pull_download _ _
    | nil =>
      refine Keeps.bind (keeps_modify fun _ => rfl) fun _ => Keeps.bind keeps_get fun _ => ?_
      refine Keeps.ite (fun _ => ?_) fun _ => ?_
      · exact Keeps.bind (keeps_modify fun _ => rfl) fun _ => keeps_pure _
      · exact Keeps.bind (keeps_modify fun _ => rfl) fun _ => keeps_pure _

omit [ReplicationStorage R] in
lemma keeps_pull_page (offset total : ℕ) (records : List RecordKey) (more : Bool) :
    Keeps pullFrame
      (Session.page offset total records more : Fallible IoError (Session R) Unit) := by
  refine Keeps.bind keeps_get fun _ => Keeps.guard (Keeps.guard (Keeps.guard (Keeps.guard ?_)))
  exact keeps_modify fun _ => rfl

lemma keeps_pull_chunk (object : Object) (offset total : ℕ) (bytes : Bytes) :
    Keeps pullFrame
      (Session.chunk object offset total bytes : Fallible IoError (Session R) _) := by
  unfold Session.chunk
  apply keeps_get.bind
  intro session
  cases session.pull.download with
  | none => exact keeps_throw _
  | some download =>
    refine Keeps.bind (keeps_lift _) fun _ => Keeps.bind (keeps_modify fun _ => rfl) fun _ => ?_
    refine Keeps.ite (fun _ => ?_) fun _ => ?_
    · exact Keeps.bind (keeps_pull_complete _) fun _ => keeps_pull_advance _
    · exact Keeps.bind (keeps_lift _) fun _ => keeps_pure _

lemma keeps_pull_missing (object : Object) :
    Keeps pullFrame (Session.missing object : Fallible IoError (Session R) _) := by
  unfold Session.missing
  apply keeps_get.bind
  intro session
  cases session.pull.download with
  | none => exact keeps_throw _
  | some download =>
    refine Keeps.bind (keeps_modify fun _ => rfl) fun _ => Keeps.guard ?_
    exact Keeps.bind (keeps_modify fun _ => rfl) fun _ => keeps_pull_advance _

end Pulling

end EditChain.Sync
