import EditChain.Lib.Preserves
import EditChain.Sync.NetworkTheorems
import EditChain.Sync.Peer
import EditChain.Sync.StorageTheorems

/-!
# Limits that a peer cannot exceed

Whatever messages a peer sends, the memory of a session stays within its limits, whether its calls
succeed or fail, and a round takes in a bounded number of pages. The invariant holds between any
two steps of a call, so that it also covers the batches handed to the storage.
-/

namespace EditChain.Sync

open Core Fallible

variable {Op : Type} [Schema Op] [Blake3] {R : Type}

/-- What the calls to a storage keep when every batch handed to it is valid. -/
structure Guards [ReplicationStorage R] (safe : R → Prop) : Prop where
  ensureScope : Preserves safe ReplicationStorage.ensureScope
  snapshot : Preserves safe ReplicationStorage.snapshot
  receivingSnapshot : Preserves safe ReplicationStorage.receivingSnapshot
  ingestRecords : ∀ records, validateRecords records = .ok () →
    Preserves (fun state => safe state.1) (ReplicationStorage.ingestRecords records)
  blobHashes : ∀ snapshot key, Preserves safe (ReplicationStorage.blobHashes snapshot key)
  readBlob : ∀ snapshot key hash, Preserves safe (ReplicationStorage.readBlob snapshot key hash)
  ingestBlob : ∀ key hash bytes, Preserves safe (ReplicationStorage.ingestBlob key hash bytes)
  confirmBlob : ∀ snapshot key hash,
    Preserves safe (ReplicationStorage.confirmBlob snapshot key hash)

namespace Session

/-- Where a round has come to. -/
structure Place where
  position : ℕ
  more : Bool
  total : Option ℕ

/-- The place of the current round. -/
def place (s : Session R) : Place :=
  ⟨s.pull.position, s.pull.more, s.progress.incoming.totalRecords⟩

/-- What holds of a session in its round between any two steps of a call. -/
structure Within (safe : R → Prop) (place : Place) (running : Bool) (s : Session R) : Prop where
  storage : safe s.replica
  staged : s.pull.staged.length ≤ inventoryPage
  stagedBytes : s.pull.stagedBytes = (s.pull.staged.map fun record => record.2.length).sum
  batch : s.pull.stagedBytes ≤ maxObjectBytes
  derived : ∀ record ∈ s.pull.staged, RecordKey.fromEncoded record.2 = .ok record.1
  buffer : ∀ download, s.pull.download = some download → download.bytes.length ≤ maxObjectBytes
  /-- An object is in transfer, or waits for its acknowledgment. -/
  sent : s.source.unacked.card + s.source.active.toList.length ≤ inventoryPage
  stands : s.place = place
  /-- A page is asked for when the one before it announced more. -/
  asking : s.pull.waitingPage = true → place.more = true ∨ place.total = none
  runs : s.progress.synchronizing = true → running = true

/-- What the invariant sees of a session beside its storage. -/
def limited (s : Session R) :=
  (s.pull.staged, s.pull.stagedBytes, s.pull.download, s.pull.waitingPage, s.source.unacked,
    s.source.active, s.place, s.progress.synchronizing)

section

variable {safe : R → Prop} {place : Place} {running : Bool} {s t : Session R}

lemma Within.congr (h : s.Within safe place running) (hsafe : safe t.replica)
    (hlimited : t.limited = s.limited) : t.Within safe place running := by
  simp only [limited, Prod.mk.injEq] at hlimited
  obtain ⟨hstaged, hbytes, hdownload, hwaiting, hunacked, hactive, hplace, hsynchronizing⟩ :=
    hlimited
  exact {
    storage := hsafe
    staged := by rw [hstaged]; exact h.staged
    stagedBytes := by rw [hstaged, hbytes]; exact h.stagedBytes
    batch := by rw [hbytes]; exact h.batch
    derived := by rw [hstaged]; exact h.derived
    buffer := by rw [hdownload]; exact h.buffer
    sent := by rw [hunacked, hactive]; exact h.sent
    stands := hplace.trans h.stands
    asking := by rw [hwaiting]; exact h.asking
    runs := by rw [hsynchronizing]; exact h.runs }

lemma Within.takeDownload (h : s.Within safe place running) :
    s.takeDownload.Within safe place running :=
  { h with buffer := fun _ hdownload => by cases hdownload }

/-- A modification that the invariant does not see. -/
lemma preserves_aside {f : Session R → Session R} (hreplica : ∀ s, (f s).replica = s.replica)
    (hlimited : ∀ s, (f s).limited = s.limited) :
    Preserves (Within safe place running) (modify f : Fallible IoError (Session R) PUnit) := by
  apply preserves_modify
  intro s h
  apply h.congr _ (hlimited s)
  rw [hreplica]
  exact h.storage

lemma preserves_onReplica {α : Type} {m : Fallible IoError R α} (hm : Preserves safe m) :
    Preserves (Within safe place running) (onReplica m) := by
  apply hm.zoom
  · intro s h
    exact h.storage
  · intro s replica h hreplica
    exact h.congr hreplica rfl

end

variable [ReplicationStorage R] {safe : R → Prop} {place : Place} {running : Bool}
  {s t : Session R}

/-! ## Objects -/

omit [ReplicationStorage R] in
/-- A staged batch is valid. -/
lemma Within.validate (h : s.Within safe place running) :
    validateRecords s.pull.staged = .ok () :=
  validateRecords_of_limits h.staged (h.stagedBytes ▸ h.batch) h.derived

/-- Flushing empties the batch. -/
lemma within_flush (hguards : Guards safe) (h : s.Within safe place running)
    (replies : List Message) :
    wp (flush replies) (fun _ t => t.Within safe place running ∧ t.pull.staged = [])
      (fun _ t => t.Within safe place running) s := by
  unfold flush
  rw [wp_bind, wp_get, wp_ite]
  constructor
  · intro hempty
    exact ⟨h, hempty⟩
  · intro _
    rw [wp_bind]
    unfold onLocal
    rw [wp_zoom]
    have hingest := hguards.ingestRecords _ h.validate (s.replica, s.localSnapshot) h.storage
    apply wp_mono hingest
    · intro _ state hstate
      rw [wp_bind, wp_modify, wp_pure]
      refine ⟨?_, rfl⟩
      exact { h with
        storage := hstate
        staged := Nat.zero_le _
        stagedBytes := rfl
        batch := Nat.zero_le _
        derived := fun record hrecord => by cases hrecord }
    · intro _ state hstate
      exact h.congr hstate rfl

lemma preserves_flush (hguards : Guards safe) (replies : List Message) :
    Preserves (Within safe place running) (flush replies : Fallible IoError (Session R) _) := by
  intro s h
  apply wp_weaken (within_flush hguards h replies)
  intro _ t ht
  exact ht.1

lemma preserves_completeBlob (hguards : Guards safe) (download : Download) (hash : Digest)
    (replies : List Message) :
    Preserves (Within safe place running)
      (completeBlob download hash replies : Fallible IoError (Session R) _) := by
  unfold completeBlob
  apply (preserves_onReplica (hguards.ingestBlob _ _ _)).bind
  intro _
  refine Preserves.bind (preserves_aside (fun _ => rfl) fun _ => rfl) fun _ => ?_
  exact preserves_pure _

omit [ReplicationStorage R] in
/-- A record for which there is room is staged. -/
lemma Within.stage {record : RecordKey} {bytes : Bytes} (h : s.Within safe place running)
    (hderived : RecordKey.fromEncoded bytes = .ok record)
    (hroom : s.pull.staged.length + 1 ≤ inventoryPage)
    (hbytes : saturatingAdd s.pull.stagedBytes bytes.length ≤ maxObjectBytes) :
    (s.stage record bytes).Within safe place running := by
  have hexact : saturatingAdd s.pull.stagedBytes bytes.length
      = s.pull.stagedBytes + bytes.length := by
    -- the limit lies far below the largest integer
    unfold saturatingAdd u64Max maxObjectBytes at *
    omega
  refine { h with staged := ?_, stagedBytes := ?_, batch := hbytes, derived := ?_ }
  · show (s.pull.staged ++ [(record, bytes)]).length ≤ inventoryPage
    rw [List.length_append, List.length_singleton]
    exact hroom
  · show saturatingAdd s.pull.stagedBytes bytes.length
      = ((s.pull.staged ++ [(record, bytes)]).map fun record => record.2.length).sum
    rw [hexact, h.stagedBytes, List.map_append, List.sum_append, List.map_singleton,
      List.sum_singleton]
  · intro other hother
    rcases List.mem_append.mp hother with hold | hnew
    · exact h.derived other hold
    · rw [List.mem_singleton.mp hnew]
      exact hderived

/-- A batch is flushed before it grows too large. -/
lemma within_completeRecord (hguards : Guards safe) {download : Download}
    (h : s.Within safe place running) (hbuffer : download.bytes.length ≤ maxObjectBytes)
    (hroom : s.pull.staged.length + 1 ≤ inventoryPage) (replies : List Message) :
    wp (completeRecord download replies) (fun _ t => t.Within safe place running)
      (fun _ t => t.Within safe place running) s := by
  unfold completeRecord
  rw [wp_bind, wp_lift]
  refine ⟨fun key hkey => ?_, fun _ _ => h⟩
  rw [wp_guard]
  refine ⟨fun _ => h, fun hsame => ?_⟩
  have hderived : RecordKey.fromEncoded download.bytes = .ok download.object.record := by
    rw [hkey, not_not.mp hsame]
  rw [wp_bind, wp_get, wp_bind]
  have hstage : ∀ (replies : List Message) (t : Session R), t.Within safe place running →
      t.pull.staged.length + 1 ≤ inventoryPage →
      saturatingAdd t.pull.stagedBytes download.bytes.length ≤ maxObjectBytes →
      wp (do
        modify (Session.stage download.object.record download.bytes)
        let session ← get
        flushIf (batchBytes ≤ session.pull.stagedBytes) replies)
        (fun _ t => t.Within safe place running) (fun _ t => t.Within safe place running) t := by
    intro replies t ht hplaces hbytes
    rw [wp_bind, wp_modify, wp_bind, wp_get]
    have hstaged := ht.stage hderived hplaces hbytes
    unfold flushIf
    rw [wp_ite]
    exact ⟨fun _ => preserves_flush hguards replies _ hstaged, fun _ => hstaged⟩
  unfold flushIf
  rw [wp_ite]
  constructor
  · intro _
    apply wp_weaken (within_flush hguards h replies)
    intro replies t ht
    have hempty : t.pull.stagedBytes = 0 := by
      rw [ht.1.stagedBytes, ht.2]
      rfl
    apply hstage replies t ht.1
    · rw [ht.2]
      decide
    · rw [hempty]
      unfold saturatingAdd
      omega
  · intro hsmall
    exact hstage replies s h hroom (Nat.le_of_not_lt hsmall)

/-- A complete object is published or staged. -/
lemma within_complete (hguards : Guards safe) (h : s.Within safe place running)
    (hroom : s.pull.download.isSome = true → s.pull.staged.length + 1 ≤ inventoryPage)
    (replies : List Message) :
    wp (complete replies) (fun _ t => t.Within safe place running)
      (fun _ t => t.Within safe place running) s := by
  unfold complete
  rw [wp_bind, wp_get]
  cases hdownload : s.pull.download with
  | none => exact h
  | some download =>
    dsimp only
    rw [wp_bind, wp_modify]
    cases download.object.blob with
    | some hash => exact preserves_completeBlob hguards download hash replies _ h.takeDownload
    | none =>
      apply within_completeRecord hguards h.takeDownload (h.buffer download hdownload)
      exact hroom (by rw [hdownload]; rfl)

lemma preserves_searchBlobs (hguards : Guards safe) :
    Preserves (Within safe place running) (searchBlobs : Fallible IoError (Session R) Unit) := by
  unfold searchBlobs
  apply preserves_get_bind
  intro session
  refine Preserves.ite (fun _ => ?_) fun _ => preserves_pure _
  unfold findBlobs
  apply preserves_get_bind
  intro session
  apply preserves_forM
  intro key
  unfold findKey
  apply preserves_get_bind
  intro session
  apply (preserves_onReplica (hguards.blobHashes _ _)).bind
  intro hashes
  apply Preserves.guard
  intro _
  apply preserves_forM
  intro hash
  unfold findBlob
  apply preserves_get_bind
  intro session
  refine Preserves.ite (fun _ => ?_) fun _ => preserves_pure _
  refine Preserves.bind (preserves_aside (fun _ => rfl) fun _ => rfl) fun _ => ?_
  apply (preserves_onReplica (hguards.confirmBlob _ _ _)).bind
  intro confirmed
  refine Preserves.ite (fun _ => ?_) fun _ => preserves_pure _
  exact preserves_aside (fun _ => rfl) fun _ => rfl

omit [ReplicationStorage R] in
/-- A fresh download is empty. -/
lemma preserves_download (object : Object) (replies : List Message) :
    Preserves (Within safe place running)
      (download object replies : Fallible IoError (Session R) _) := by
  unfold download
  apply (preserves_lift _).bind
  intro request
  refine Preserves.bind (preserves_modify ?_) fun _ => preserves_pure _
  intro s h
  refine { h with buffer := ?_ }
  intro found hfound
  cases hfound
  exact Nat.zero_le _

omit [ReplicationStorage R] in
/-- Another page is asked for when there is more. -/
lemma preserves_finishPage (replies : List Message) :
    Preserves (Within safe place running)
      (finishPage replies : Fallible IoError (Session R) _) := by
  intro s h
  unfold finishPage
  have hchecked : s.checkedPage.Within safe place running := h.congr h.storage rfl
  rw [wp_bind, wp_modify, wp_bind, wp_get, wp_ite]
  constructor
  · intro hmore
    rw [wp_bind, wp_modify, wp_pure]
    refine { hchecked with asking := fun _ => .inl ?_ }
    rw [← hchecked.stands]
    exact hmore
  · intro _
    rw [wp_bind, wp_modify, wp_pure]
    exact { hchecked with runs := fun hrunning => by cases hrunning }

lemma preserves_advance (hguards : Guards safe) (replies : List Message) :
    Preserves (Within safe place running)
      (advance replies : Fallible IoError (Session R) _) := by
  unfold advance
  apply preserves_get_bind
  intro session
  cases session.pull.records with
  | cons record rest =>
    refine Preserves.bind (preserves_aside (fun _ => rfl) fun _ => rfl) fun _ => ?_
    exact preserves_download _ _
  | nil =>
    apply (preserves_flush hguards replies).bind
    intro replies
    apply (preserves_searchBlobs hguards).bind
    intro _
    apply preserves_get_bind
    intro session
    cases session.pull.blobs with
    | cons object rest =>
      refine Preserves.bind (preserves_aside (fun _ => rfl) fun _ => rfl) fun _ => ?_
      exact preserves_download _ _
    | nil => exact preserves_finishPage _

/-! ## Replies of the peer -/

omit [Blake3] in
/-- A chunk is taken in within the limit of an object. -/
lemma wp_appendWithin (download : Download) (object : Object) (offset total : ℕ) (bytes : Bytes) :
    wp (Download.append object offset total bytes)
      (fun _ later => later.bytes.length ≤ maxObjectBytes) (fun _ _ => True) download := by
  unfold Download.append
  rw [wp_bind, wp_get, wp_guard]
  refine ⟨fun _ => trivial, fun _ => ?_⟩
  rw [wp_guard]
  refine ⟨fun _ => trivial, fun haccepted => ?_⟩
  rw [wp_bind, wp_set, wp_pure]
  simp only [not_or, not_not, not_lt] at haccepted
  obtain ⟨-, hoffset, htotal, -, hstop, -, -⟩ := haccepted
  show (download.bytes ++ bytes).length ≤ maxObjectBytes
  rw [List.length_append, ← hoffset]
  omega

lemma within_chunk (hguards : Guards safe) (h : s.Within safe place running)
    (hroom : s.pull.download.isSome = true → s.pull.staged.length + 1 ≤ inventoryPage)
    (object : Object) (offset total : ℕ) (bytes : Bytes) :
    wp (chunk object offset total bytes) (fun _ t => t.Within safe place running)
      (fun _ t => t.Within safe place running) s := by
  unfold chunk
  rw [wp_bind, wp_get]
  cases hdownload : s.pull.download with
  | none => exact h
  | some download =>
    have happend := wp_appendWithin download object offset total bytes
    dsimp only
    rw [wp_bind, wp_lift]
    refine ⟨fun done hdone => ?_, fun _ _ => h⟩
    set later := ((Download.append object offset total bytes).exec download).2 with hlater
    have hrun : (Download.append object offset total bytes).exec download = (.ok done, later) :=
      Prod.ext hdone hlater.symm
    have hbuffer := wp_eq_ok happend hrun
    rw [wp_bind, wp_modify]
    have hnext : Within safe place running
        { s with pull := { s.pull with download := some later } } := by
      refine { h with buffer := ?_ }
      intro found hfound
      cases hfound
      exact hbuffer
    rw [wp_ite]
    constructor
    · intro _
      rw [wp_bind]
      have hplaces := hroom (by rw [hdownload]; rfl)
      apply wp_weaken (within_complete hguards hnext (fun _ => hplaces) [])
      intro replies t ht
      exact preserves_advance hguards replies t ht
    · intro _
      rw [wp_bind, wp_lift]
      exact ⟨fun _ _ => hnext, fun _ _ => hnext⟩

lemma preserves_missing (hguards : Guards safe) (object : Object) :
    Preserves (Within safe place running) (missing object : Fallible IoError (Session R) _) := by
  unfold missing
  apply preserves_get_bind
  intro session
  cases session.pull.download with
  | none => exact preserves_throw _
  | some download =>
    refine Preserves.bind (preserves_modify fun _ h => h.takeDownload) fun _ => ?_
    apply Preserves.guard
    intro _
    refine Preserves.bind (preserves_aside (fun _ => rfl) fun _ => rfl) fun _ => ?_
    exact preserves_advance hguards []

/-- What is known of a page that is accepted. -/
structure Accepted (place : Place) (offset total : ℕ) (records : List RecordKey) (more : Bool) :
    Prop where
  position : offset = place.position
  ahead : more = true → records ≠ []
  limit : offset + records.length ≤ total
  more : more = decide (offset + records.length < total)
  constant : ∀ before, place.total = some before → before = total
  /-- The page before it announced more, unless it is the first. -/
  awaited : place.more = true ∨ place.total = none

omit [ReplicationStorage R] in
/-- An accepted page moves the round on; another one is refused. -/
lemma within_page (h : s.Within safe place running) (offset total : ℕ) (records : List RecordKey)
    (more : Bool) :
    wp (page offset total records more)
      (fun _ t => t.Within safe ⟨offset + records.length, more, some total⟩ running
        ∧ Accepted place offset total records more ∧ s.Waiting)
      (fun _ t => t.Within safe place running) s := by
  unfold page
  rw [wp_bind, wp_get, wp_guard]
  refine ⟨fun _ => h, fun hpage => ?_⟩
  rw [wp_guard]
  refine ⟨fun _ => h, fun hposition => ?_⟩
  rw [wp_guard]
  refine ⟨fun _ => h, fun _ => ?_⟩
  rw [wp_guard]
  refine ⟨fun _ => h, fun htotal => ?_⟩
  rw [wp_modify]
  simp only [not_or, not_not, not_and, not_lt] at hpage hposition htotal
  obtain ⟨hwaiting, -, hahead⟩ := hpage
  obtain ⟨-, hlimit, hmore, hconstant⟩ := htotal
  have hplace : place = ⟨s.pull.position, s.pull.more, s.progress.incoming.totalRecords⟩ :=
    h.stands.symm
  refine ⟨?_, ?_⟩
  · exact { h with
      stands := rfl
      asking := fun hasked => by cases hasked }
  · refine ⟨⟨?_, hahead, hlimit, hmore, ?_, h.asking hwaiting⟩, .inl hwaiting⟩
    · rw [hplace]
      exact hposition.1
    · intro before hbefore
      rw [hplace] at hbefore
      have hany : s.progress.incoming.totalRecords = some before := hbefore
      rw [hany] at hconstant
      simpa using hconstant

/-! ## Requests of the peer -/

/-- The source of a session with its storage, within the limits. -/
def Tidy (safe : R → Prop) (state : Source × R) : Prop :=
  state.1.unacked.card + state.1.active.toList.length ≤ inventoryPage ∧ safe state.2

omit [ReplicationStorage R] in
lemma preserves_onSource {α : Type} {m : Fallible IoError (Source × R) α}
    (hm : Preserves (Tidy safe) m) : Preserves (Within safe place running) (onSource m) := by
  apply hm.zoom
  · intro s h
    exact ⟨h.sent, h.storage⟩
  · intro s state h hstate
    exact { h with storage := hstate.2, sent := hstate.1 }

omit [ReplicationStorage R] in
/-- A step of the source that changes nothing in transfer. -/
lemma tidy_source {state : Source × R} (h : Tidy safe state) {source : Source}
    (hunacked : source.unacked = state.1.unacked) (hactive : source.active = state.1.active) :
    Tidy safe (source, state.2) := by
  refine ⟨?_, h.2⟩
  show source.unacked.card + source.active.toList.length ≤ inventoryPage
  rw [hunacked, hactive]
  exact h.1

omit [ReplicationStorage R] in
lemma preserves_tidyStorage {α : Type} {m : Fallible IoError R α} (hm : Preserves safe m) :
    Preserves (Tidy safe) (Source.onStorage m) := by
  apply hm.zoom
  · intro state h
    exact h.2
  · intro state replica h hreplica
    exact ⟨h.1, hreplica⟩

omit [ReplicationStorage R] in
lemma preserves_tidySource {α : Type} {m : Fallible IoError Source α}
    (hm : Preserves
      (fun source => source.unacked.card + source.active.toList.length ≤ inventoryPage) m) :
    Preserves (Tidy safe) (Source.onSource m) := by
  apply hm.zoom
  · intro state h
    exact h.1
  · intro state source h hsource
    exact ⟨hsource, h.2⟩

lemma preserves_inventory (hguards : Guards safe) (after : Option RecordKey) :
    Preserves (Tidy safe) (Source.inventory after : Fallible IoError (Source × R) _) := by
  unfold Source.inventory
  apply preserves_get_bind
  intro state
  apply Preserves.guard
  intro _
  have hlocate : Preserves (Tidy safe) (Source.locate after : Fallible IoError (Source × R) _) := by
    unfold Source.locate
    apply preserves_get_bind
    intro state
    refine Preserves.ite (fun _ => ?_) fun _ => Preserves.ite (fun _ => preserves_throw _)
      fun _ => preserves_pure _
    unfold Source.freeze
    apply (preserves_tidyStorage hguards.snapshot).bind
    intro snapshot
    apply (preserves_lift _).bind
    intro order
    exact preserves_tidySource (preserves_modify fun _ h => h)
  apply hlocate.bind
  intro _ state hstate
  rw [wp_bind, wp_get, wp_bind]
  unfold Source.onSource
  rw [wp_zoom, wp_set, wp_pure]
  exact tidy_source hstate rfl rfl

/-- Only the object in transfer comes to be unacknowledged. -/
lemma preserves_sendChunk (object : Object) (offset : ℕ) :
    Preserves (fun source => source.unacked.card + source.active.toList.length ≤ inventoryPage)
      (Source.sendChunk object offset) := by
  intro source h
  unfold Source.sendChunk
  rw [wp_bind, wp_get]
  cases hactive : source.active with
  | none =>
    dsimp only
    exact h
  | some active =>
    dsimp only
    rw [hactive, Option.toList_some, List.length_singleton] at h
    have hsame : source.unacked.card + source.active.toList.length ≤ inventoryPage := by
      rw [hactive]
      exact h
    rw [wp_guard]
    refine ⟨fun _ => hsame, fun _ => ?_⟩
    rw [wp_guard]
    refine ⟨fun _ => hsame, fun _ => ?_⟩
    rw [wp_guard]
    refine ⟨fun _ => hsame, fun _ => ?_⟩
    rw [wp_bind, wp_set, wp_pure]
    unfold Source.advanced
    split
    · have hinsert := Finset.card_insert_le object source.unacked
      show (insert object source.unacked).card + 0 ≤ inventoryPage
      omega
    · exact h

/-- A transfer starts only when there is room for its acknowledgment. -/
lemma preserves_need (hguards : Guards safe) (object : Object) (offset : ℕ) :
    Preserves (Tidy safe) (Source.need object offset : Fallible IoError (Source × R) _) := by
  intro state hstate
  have hsend : Preserves (Tidy safe) (Source.onSource (Source.sendChunk object offset)) :=
    preserves_tidySource (preserves_sendChunk object offset)
  unfold Source.need
  rw [wp_bind, wp_get, wp_guard]
  refine ⟨fun _ => hstate, fun _ => ?_⟩
  rw [wp_ite]
  constructor
  · intro _
    rw [wp_guard]
    refine ⟨fun _ => hstate, fun hfree => ?_⟩
    simp only [not_or, not_le, Bool.not_eq_true, Option.isSome_eq_false_iff,
      Option.isNone_iff_eq_none] at hfree
    obtain ⟨hactive, hroom, -⟩ := hfree
    -- loading the object leaves the source alone
    have hload : Preserves (fun later : Source × R => later.1 = state.1 ∧ safe later.2)
        (Source.load object) := by
      unfold Source.load
      apply preserves_get_bind
      intro later
      cases later.1.snapshot with
      | none => exact preserves_throw _
      | some snapshot =>
        dsimp only
        cases snapshot.record object.record with
        | none => exact preserves_throw _
        | some encoded =>
          dsimp only
          cases object.blob with
          | none => exact preserves_pure _
          | some hash =>
            apply (hguards.readBlob snapshot object.record hash).zoom
            · intro later h
              exact h.2
            · intro later replica h hreplica
              exact ⟨h.1, hreplica⟩
    have hloaded : ∀ later : Source × R, later.1 = state.1 ∧ safe later.2 → Tidy safe later := by
      intro later hlater
      refine ⟨?_, hlater.2⟩
      rw [hlater.1]
      exact hstate.1
    rw [wp_bind]
    apply wp_mono (hload state ⟨rfl, hstate.2⟩)
    · intro loaded later hlater
      cases loaded with
      | none =>
        dsimp only
        rw [wp_bind]
        unfold Source.onSource
        rw [wp_zoom, wp_modify, wp_pure]
        exact tidy_source (hloaded later hlater) rfl rfl
      | some bytes =>
        dsimp only
        rw [wp_bind]
        unfold Source.onSource
        rw [wp_zoom, wp_modify]
        apply hsend
        refine ⟨?_, hlater.2⟩
        show later.1.unacked.card + 1 ≤ inventoryPage
        rw [hlater.1]
        exact hroom
    · intro _ later hlater
      exact hloaded later hlater
  · intro _
    exact hsend state hstate

/-- An acknowledgment only makes room. -/
lemma preserves_ack (object : Object) :
    Preserves (fun source => source.unacked.card + source.active.toList.length ≤ inventoryPage)
      (Source.ack object) := by
  intro source h
  unfold Source.ack
  rw [wp_bind, wp_get, wp_guard]
  refine ⟨fun _ => h, fun _ => ?_⟩
  have herase : (source.unacked.erase object).card ≤ source.unacked.card := Finset.card_erase_le
  rw [wp_set]
  show (source.unacked.erase object).card + source.active.toList.length ≤ inventoryPage
  omega

lemma preserves_checked (position : ℕ) :
    Preserves (fun source => source.unacked.card + source.active.toList.length ≤ inventoryPage)
      (Source.checked position) := by
  intro source h
  unfold Source.checked
  rw [wp_bind, wp_get, wp_guard]
  exact ⟨fun _ => h, fun _ => h⟩

/-! ## Calls -/

/-- A page is accepted: the call gets as far as its checks, and they pass. -/
def accepts (session : Session R) (offset total : ℕ) (records : List RecordKey) (more : Bool) :
    Bool :=
  !session.failed && session.progress.accepted
    && ((do
      onReplica ReplicationStorage.ensureScope
      page offset total records more).exec session).1.isOk

/-- Where the round of a session comes to by a call that starts no other. -/
def arrival (session : Session R) : Input → Place
  | .receive (.page offset total records more) =>
    if session.accepts offset total records more then
      ⟨offset + records.length, more, some total⟩
    else session.place
  | _ => session.place

/-- The place at the start of a round. -/
def Place.start : Place := ⟨0, false, none⟩

/-- A call starts a round, or goes on in the one before. -/
def Proceeds (safe : R → Prop) (s : Session R) (input : Input) (t : Session R) : Prop :=
  (s.progress.synchronizing = false ∧ t.progress.synchronizing = true
      ∧ t.Within safe Place.start true)
    ∨ t.Within safe (s.arrival input) s.progress.synchronizing

omit [ReplicationStorage R] in
lemma Within.failed (h : s.Within safe place running) (failed : Bool) :
    Within safe place running { s with failed := failed } := h.congr h.storage rfl

omit [ReplicationStorage R] in
/-- A guarded call of an open session, or no call. -/
lemma wp_attempt {α : Type} {m : Fallible IoError (Session R) α} {post : Session R → Prop}
    (hfailed : s.failed = true → post s)
    (h : s.failed = false → wp m (fun _ t => post { t with failed := false })
      (fun _ t => post { t with failed := true }) s) :
    wp (do ensureOpen; guarded m) (fun _ t => post t) (fun _ t => post t) s := by
  unfold ensureOpen
  rw [wp_bind, wp_bind, wp_get, wp_ite]
  constructor
  · intro hrefused
    exact hfailed hrefused
  · intro hopened
    exact wp_guarded (h (Bool.not_eq_true _ ▸ hopened))

omit [ReplicationStorage R] in
/-- A storage call changes the storage alone. -/
lemma wp_onReplica_safe {α : Type} {m : Fallible IoError R α} (hm : Preserves safe m)
    (h : safe s.replica) :
    wp (onReplica m) (fun _ t => ∃ replica, safe replica ∧ t = { s with replica := replica })
      (fun _ t => ∃ replica, safe replica ∧ t = { s with replica := replica }) s := by
  unfold onReplica
  rw [wp_zoom]
  apply wp_mono (hm s.replica h)
  · intro _ replica hreplica
    exact ⟨replica, hreplica, rfl⟩
  · intro _ replica hreplica
    exact ⟨replica, hreplica, rfl⟩

/-- A tick starts a round when none is in flight. -/
lemma within_tick (hguards : Guards safe) (h : s.Within safe s.place s.progress.synchronizing) :
    wp tick
      (fun _ t => (s.progress.synchronizing = false ∧ t.progress.synchronizing = true
        ∧ t.Within safe Place.start true) ∨ t.Within safe s.place s.progress.synchronizing)
      (fun _ t => (s.progress.synchronizing = false ∧ t.progress.synchronizing = true
        ∧ t.Within safe Place.start true) ∨ t.Within safe s.place s.progress.synchronizing)
      s := by
  apply wp_attempt fun _ => .inr h
  intro _
  unfold startRound
  rw [wp_bind]
  apply wp_mono (wp_onReplica_safe hguards.ensureScope h.storage)
  · rintro _ t ⟨replica, hsafe, rfl⟩
    rw [wp_bind, wp_get, wp_ite]
    constructor
    · intro _
      exact .inr (h.congr hsafe rfl)
    · intro hround
      simp only [Bool.or_eq_true, not_or, Bool.not_eq_true] at hround
      rw [wp_bind]
      apply wp_mono (wp_onReplica_safe hguards.receivingSnapshot hsafe)
      · rintro snapshot t ⟨replica', hsafe', rfl⟩
        rw [wp_bind, wp_modify, wp_pure]
        refine .inl ⟨hround.2, rfl, ?_⟩
        exact {
          storage := hsafe'
          staged := Nat.zero_le _
          stagedBytes := rfl
          batch := Nat.zero_le _
          derived := fun record hrecord => by cases hrecord
          buffer := fun download hdownload => by cases hdownload
          sent := h.sent
          stands := rfl
          asking := fun _ => .inr rfl
          runs := fun _ => rfl }
      · rintro _ t ⟨replica', hsafe', rfl⟩
        exact .inr (h.congr hsafe' rfl)
  · rintro _ t ⟨replica, hsafe, rfl⟩
    exact .inr (h.congr hsafe rfl)

/-- Only an accepted page moves the round on. -/
lemma arrival_of_refused {message : Message}
    (h : ∀ offset total records more, message = .page offset total records more →
      s.accepts offset total records more = false) : s.arrival (.receive message) = s.place := by
  cases message with
  | page offset total records more =>
    show (if s.accepts offset total records more = true then _ else _) = _
    rw [h offset total records more rfl, if_neg Bool.false_ne_true]
  | _ => rfl

/-- An open session has accepted a page when the checks of the page pass. -/
lemma accepts_eq {replica : R} (hopened : s.failed = false) (haccepted : s.progress.accepted = true)
    (hscope : (onReplica ReplicationStorage.ensureScope).exec s
      = (.ok (), { s with replica := replica })) (offset total : ℕ) (records : List RecordKey)
    (more : Bool) :
    s.accepts offset total records more
      = ((page offset total records more).exec { s with replica := replica }).1.isOk := by
  have hready : (!s.failed && s.progress.accepted) = true := by
    rw [hopened, haccepted]
    rfl
  unfold accepts
  rw [hready, Bool.true_and, exec_bind_of_ok hscope]

/-- A message of an accepted peer moves the round on only by an accepted page. -/
lemma within_dispatch (hguards : Guards safe) (h : s.Within safe s.place s.progress.synchronizing)
    {replica : R} (hsafe : safe replica) (hopened : s.failed = false)
    (haccepted : s.progress.accepted = true)
    (hscope : (onReplica ReplicationStorage.ensureScope).exec s
      = (.ok (), { s with replica := replica }))
    (hroom : s.pull.download.isSome = true → s.pull.staged.length + 1 ≤ inventoryPage)
    (message : Message) :
    wp (dispatch message)
      (fun _ t => t.Within safe (s.arrival (.receive message)) s.progress.synchronizing)
      (fun _ t => t.Within safe (s.arrival (.receive message)) s.progress.synchronizing)
      { s with replica := replica } := by
  have hnext : Within safe s.place s.progress.synchronizing { s with replica := replica } :=
    h.congr hsafe rfl
  cases message with
  | hello version encoding space => exact hnext
  | inventory after =>
    exact (preserves_onSource (preserves_inventory hguards after)).bind
      (fun _ => preserves_pure _) _ hnext
  | need record blob offset =>
    exact (preserves_onSource (preserves_need hguards ⟨record, blob⟩ offset)).bind
      (fun _ => preserves_pure _) _ hnext
  | ack record blob =>
    have hack : Preserves (Within safe s.place s.progress.synchronizing)
        (acknowledge ⟨record, blob⟩ : Fallible IoError (Session R) Unit) := by
      refine (preserves_onSource (preserves_tidySource (preserves_ack _))).bind fun _ => ?_
      refine preserves_aside (fun _ => rfl) fun t => ?_
      unfold acknowledged limited place
      dsimp only
      split <;> rfl
    exact hack.bind (fun _ => preserves_pure _) _ hnext
  | checked position =>
    exact (preserves_onSource (preserves_tidySource (preserves_checked position))).bind
      (fun _ => preserves_pure _) _ hnext
  | page offset total records more =>
    have harrival : s.arrival (.receive (.page offset total records more))
        = if ((page offset total records more).exec { s with replica := replica }).1.isOk = true
          then ⟨offset + records.length, more, some total⟩ else s.place := by
      rw [← accepts_eq hopened haccepted hscope]
      rfl
    show wp (page offset total records more >>= fun _ => advance []) _ _ _
    rw [wp_bind]
    have hpage := within_page hnext offset total records more
    apply wp_of_exec
    · intro _ t ht
      have hplace : s.arrival (.receive (.page offset total records more))
          = ⟨offset + records.length, more, some total⟩ := by
        rw [harrival, ht]
        rfl
      rw [hplace]
      exact preserves_advance hguards [] t (wp_eq_ok hpage ht).1
    · intro _ t ht
      have hplace : s.arrival (.receive (.page offset total records more)) = s.place := by
        rw [harrival, ht]
        rfl
      rw [hplace]
      have hrefused := wp_eq_error hpage ht
      exact hrefused
  | chunk record blob offset total bytes =>
    exact within_chunk hguards hnext hroom ⟨record, blob⟩ offset total bytes
  | missing record blob => exact preserves_missing hguards ⟨record, blob⟩ _ hnext

/-- A received message starts a round, or moves the one before on. -/
lemma proceeds_receive (hguards : Guards safe)
    (h : s.Within safe s.place s.progress.synchronizing)
    (hroom : s.failed = false →
      s.pull.download.isSome = true → s.pull.staged.length + 1 ≤ inventoryPage)
    (message : Message) :
    wp (receive message) (fun _ t => Proceeds safe s (.receive message) t)
      (fun _ t => Proceeds safe s (.receive message) t) s := by
  apply wp_attempt
  · intro hfailed
    right
    rw [arrival_of_refused fun _ _ _ _ _ => by unfold accepts; rw [hfailed]; rfl]
    exact h
  intro hopened
  unfold process
  rw [wp_bind]
  have hsafe := wp_onReplica_safe hguards.ensureScope h.storage
  apply wp_of_exec
  · intro _ t hscope
    obtain ⟨replica, hreplica, rfl⟩ := wp_eq_ok hsafe hscope
    rw [wp_bind, wp_get, wp_ite]
    constructor
    · intro haccepted
      rw [wp_bind]
      have hdispatch := within_dispatch hguards h hreplica hopened haccepted hscope (hroom hopened)
        message
      apply wp_mono hdispatch
      · intro _ u hu
        rw [wp_bind, wp_modify, wp_pure]
        exact .inr (hu.congr hu.storage rfl)
      · intro _ u hu
        exact .inr (hu.failed _)
    · intro haccepted
      have hunaccepted : s.progress.accepted = false := Bool.not_eq_true _ ▸ haccepted
      have harrival : s.arrival (.receive message) = s.place :=
        arrival_of_refused fun _ _ _ _ _ => by
          unfold accepts
          rw [hunaccepted, Bool.and_false]
          rfl
      unfold Proceeds
      rw [harrival]
      have hnext : Within safe s.place s.progress.synchronizing { s with replica := replica } :=
        h.congr hreplica rfl
      unfold negotiate
      rw [wp_bind, wp_get, wp_guard]
      refine ⟨fun _ => .inr (hnext.failed _), fun _ => ?_⟩
      rw [wp_guard]
      refine ⟨fun _ => .inr (hnext.failed _), fun _ => ?_⟩
      rw [wp_bind, wp_modify]
      have hready : Within safe s.place s.progress.synchronizing
          { s with replica := replica, progress := { s.progress with accepted := true } } :=
        hnext.congr hreplica rfl
      apply wp_mono (within_tick hguards hready)
      · rintro _ u (⟨hidle, hruns, hu⟩ | hu)
        · exact .inl ⟨hidle, hruns, hu.failed _⟩
        · exact .inr (hu.failed _)
      · rintro _ u (⟨hidle, hruns, hu⟩ | hu)
        · exact .inl ⟨hidle, hruns, hu.failed _⟩
        · exact .inr (hu.failed _)
  · intro e t hscope
    obtain ⟨replica, hreplica, rfl⟩ := wp_eq_error hsafe hscope
    right
    rw [arrival_of_refused fun _ _ _ _ _ => by
      unfold accepts
      rw [exec_bind_of_error hscope]
      exact Bool.and_false _]
    exact h.congr hreplica rfl

/-- What is known of the page that a session accepts. -/
lemma accepted_of_accepts (hguards : Guards safe)
    (h : s.Within safe s.place s.progress.synchronizing) {offset total : ℕ}
    {records : List RecordKey} {more : Bool}
    (haccepts : s.accepts offset total records more = true) :
    s.failed = false ∧ Accepted s.place offset total records more ∧ s.Waiting := by
  unfold accepts at haccepts
  simp only [Bool.and_eq_true, Bool.not_eq_true'] at haccepts
  obtain ⟨⟨hopened, haccepted⟩, hok⟩ := haccepts
  have hsafe := wp_onReplica_safe hguards.ensureScope h.storage
  cases hscope : (onReplica ReplicationStorage.ensureScope).exec s with
  | mk result t =>
    cases result with
    | error e =>
      rw [exec_bind_of_error hscope] at hok
      cases hok
    | ok value =>
      obtain ⟨replica, hreplica, rfl⟩ := wp_eq_ok hsafe hscope
      rw [exec_bind_of_ok hscope] at hok
      have hnext : Within safe s.place s.progress.synchronizing { s with replica := replica } :=
        h.congr hreplica rfl
      cases hpage : (page offset total records more).exec { s with replica := replica } with
      | mk result u =>
        rw [hpage] at hok
        cases result with
        | error e => cases hok
        | ok value =>
          obtain ⟨-, hpage, hwaiting⟩ :=
            wp_eq_ok (within_page hnext offset total records more) hpage
          exact ⟨hopened, hpage, hwaiting⟩

/-- A call goes on in a round with an accepted page, or leaves the place of the round. -/
lemma arrival_cases (s : Session R) (input : Input) :
    (∃ offset total records more, input = .receive (.page offset total records more)
      ∧ s.accepts offset total records more = true)
    ∨ s.arrival input = s.place
      ∧ ∀ offset total records more, input = .receive (.page offset total records more) →
        s.accepts offset total records more = false := by
  cases input with
  | tick => exact .inr ⟨rfl, fun _ _ _ _ h => by cases h⟩
  | receive message =>
    by_cases h : ∃ offset total records more, message = .page offset total records more
        ∧ s.accepts offset total records more = true
    · obtain ⟨offset, total, records, more, rfl, haccepts⟩ := h
      exact .inl ⟨offset, total, records, more, rfl, haccepts⟩
    · have hrefused : ∀ offset total records more, message = .page offset total records more →
          s.accepts offset total records more = false := by
        intro offset total records more hmessage
        by_contra haccepts
        exact h ⟨offset, total, records, more, hmessage, Bool.not_eq_false _ ▸ haccepts⟩
      refine .inr ⟨arrival_of_refused hrefused, fun offset total records more hinput => ?_⟩
      cases hinput
      exact hrefused offset total records more rfl

end Session

/-! ## Runs -/

variable [ReplicationStorage R]

/-- What the peer has announced in the current round. -/
structure Announced where
  /-- The number of rounds that were started. -/
  round : ℕ := 0
  /-- The keys of the accepted pages. -/
  keys : List RecordKey := []
  /-- The number of accepted pages. -/
  pages : ℕ := 0

/-- What is announced after a call. -/
def Announced.next (announced : Announced) (before : Session R) (input : Input)
    (after : Session R) : Announced :=
  if !before.progress.synchronizing && after.progress.synchronizing then
    { round := announced.round + 1 }
  else
    match input with
    | .receive (.page offset total records more) =>
      if before.accepts offset total records more then
        ⟨announced.round, announced.keys ++ records, announced.pages + 1⟩
      else announced
    | _ => announced

namespace Peer

/-- One event, and what is announced after it. -/
def track (state : Peer R × Announced) (event : Event R) : Peer R × Announced :=
  let peer := state.1.step event
  match event with
  | .call input => (peer, state.2.next state.1.session input peer.session)
  | .change _ => (peer, state.2)

/-- A sequence of events from a fresh session. -/
def tracked (store : R) (events : List (Event R)) : Peer R × Announced :=
  events.foldl track (.new store, {})

end Peer

/-- Every batch that was handed to the storage is valid. -/
def BatchesValid (storage : Traced R) : Prop :=
  ∀ records result, Call.ingestRecords records result ∈ storage.calls →
    validateRecords records = .ok ()

/-- The limits that hold in every state of a session, of failed sessions too. -/
structure Contained (state : Peer R × Announced) : Prop where
  /-- The buffer of the download is bounded. -/
  download : ∀ download, state.1.session.pull.download = some download →
    download.bytes.length ≤ maxObjectBytes
  /-- Staged records are bounded in number and size. -/
  staged : state.1.session.pull.staged.length ≤ inventoryPage
  stagedBytes : state.1.session.pull.stagedBytes
    = (state.1.session.pull.staged.map fun record => record.2.length).sum
  batch : state.1.session.pull.stagedBytes ≤ maxObjectBytes
  ingested : BatchesValid state.1.session.replica
  /-- Objects sent and not acknowledged are bounded, and one transfer is active at most. -/
  unacked : state.1.session.source.unacked.card ≤ inventoryPage
  active : state.1.session.source.active.toList.length ≤ 1
  /-- The position counts the announced keys, and stays within the total. -/
  position : state.1.session.pull.position = state.2.keys.length
  limit : ∀ total, state.1.session.progress.incoming.totalRecords = some total →
    state.1.session.pull.position ≤ total ∧ state.2.pages ≤ max total 1
  unannounced : state.1.session.progress.incoming.totalRecords = none → state.2.pages = 0
  /-- An accepted page that announces more moves the position on. -/
  advance : ∀ offset total records,
    state.1.session.accepts offset total records true = true →
      state.1.session.pull.position
        < (state.1.step (.call (.receive (.page offset total records true)))).session.pull.position

/-- Within a round the position does not fall, and the total stays once it is announced. -/
structure GoesOn (state later : Peer R × Announced) : Prop where
  round : state.2.round ≤ later.2.round
  position : state.2.round = later.2.round →
    state.1.session.pull.position ≤ later.1.session.pull.position
  total : state.2.round = later.2.round →
    ∀ total, state.1.session.progress.incoming.totalRecords = some total →
      later.1.session.progress.incoming.totalRecords = some total

/-- The invariant of a run. -/
structure Confined (s : Session (Traced R)) (announced : Announced) : Prop where
  within : s.Within BatchesValid s.place s.progress.synchronizing
  paced : s.failed = false → s.Paced
  position : s.place.position = announced.keys.length
  unannounced : s.place.total = none → announced.pages = 0
  limit : ∀ total, s.place.total = some total → s.place.position ≤ total
    ∧ announced.pages ≤ max total 1
    ∧ (s.place.more = true → announced.pages ≤ s.place.position ∧ s.place.position < total)

omit [ReplicationStorage R] in
/-- A recorded call that is no batch. -/
lemma preserves_call {α : Type} {m : Fallible IoError R α} {event : Except IoError α → Call}
    (h : ∀ result records outcome, event result ≠ .ingestRecords records outcome) :
    Preserves BatchesValid (Traced.call m event) := by
  intro storage hstorage
  have hnext : BatchesValid ((Traced.call m event).exec storage).2 := by
    intro records result hmem
    rcases List.mem_append.mp hmem with hold | hnew
    · exact hstorage records result hold
    · exact absurd (List.mem_singleton.mp hnew).symm (h _ records result)
  apply wp_of_exec
  · intro _ t ht
    rw [ht] at hnext
    exact hnext
  · intro _ t ht
    rw [ht] at hnext
    exact hnext

lemma guards_batchesValid : Guards (BatchesValid (R := R)) where
  ensureScope := preserves_call fun _ _ _ h => by cases h
  snapshot := preserves_call fun _ _ _ h => by cases h
  receivingSnapshot := preserves_call fun _ _ _ h => by cases h
  ingestRecords records hvalid := by
    intro state hstate
    have hnext : BatchesValid
        ((ReplicationStorage.ingestRecords (R := Traced R) records).exec state).2.1 := by
      intro batch result hmem
      rcases List.mem_append.mp hmem with hold | hnew
      · exact hstate batch result hold
      · cases List.mem_singleton.mp hnew
        exact hvalid
    apply wp_of_exec
    · intro _ t ht
      rw [ht] at hnext
      exact hnext
    · intro _ t ht
      rw [ht] at hnext
      exact hnext
  blobHashes _ _ := preserves_call fun _ _ _ h => by cases h
  readBlob _ _ _ := preserves_call fun _ _ _ h => by cases h
  ingestBlob _ _ _ := preserves_call fun _ _ _ h => by cases h
  confirmBlob _ _ _ := preserves_call fun _ _ _ h => by cases h

/-! ## The invariant of a run -/

section

variable {s t : Session (Traced R)} {announced : Announced} {input : Input}

/-- The start of a round. -/
lemma Confined.start (announced : Announced) (input : Input)
    (hidle : s.progress.synchronizing = false)
    (hruns : t.progress.synchronizing = true)
    (h : t.Within BatchesValid Session.Place.start true) (hpaced : t.failed = false → t.Paced) :
    announced.next s input t = { round := announced.round + 1 }
      ∧ Confined t (announced.next s input t) := by
  have hnext : announced.next s input t = { round := announced.round + 1 } := by
    unfold Announced.next
    rw [hidle, hruns]
    rfl
  have hplace : t.place = Session.Place.start := h.stands
  refine ⟨hnext, ?_⟩
  rw [hnext]
  refine ⟨?_, hpaced, ?_, fun _ => rfl, fun total htotal => ?_⟩
  · rw [hplace, hruns]
    exact h
  · rw [hplace]
    rfl
  · rw [hplace] at htotal
    cases htotal

/-- A call that starts no round announces the keys of a page, or nothing. -/
lemma next_of_going (announced : Announced) (input : Input)
    (hruns : t.progress.synchronizing = true → s.progress.synchronizing = true) :
    announced.next s input t = match input with
      | .receive (.page offset total records more) =>
        if s.accepts offset total records more then
          ⟨announced.round, announced.keys ++ records, announced.pages + 1⟩
        else announced
      | _ => announced := by
  have hsame : (!s.progress.synchronizing && t.progress.synchronizing) = false := by
    cases hafter : t.progress.synchronizing with
    | false => exact Bool.and_false _
    | true =>
      rw [hruns hafter]
      rfl
  unfold Announced.next
  rw [hsame]
  rfl

omit [ReplicationStorage R] in
/-- An accepted page goes on in its round. -/
lemma Confined.page (h : Confined s announced) {offset total : ℕ} {records : List RecordKey}
    {more : Bool} (haccepted : Session.Accepted s.place offset total records more)
    (ht : t.Within BatchesValid ⟨offset + records.length, more, some total⟩
      s.progress.synchronizing) (hpaced : t.failed = false → t.Paced) :
    Confined t ⟨announced.round, announced.keys ++ records, announced.pages + 1⟩ := by
  have hplace : t.place = ⟨offset + records.length, more, some total⟩ := ht.stands
  have hbefore := h.limit total
  have hpages : announced.pages ≤ s.place.position ∧ (announced.pages = 0
      ∨ s.place.position < total) := by
    cases hannounced : s.place.total with
    | none =>
      have hnone := h.unannounced hannounced
      rw [hnone]
      exact ⟨Nat.zero_le _, .inl rfl⟩
    | some before =>
      -- a page after the first was asked for because there was more
      obtain rfl := haccepted.constant before hannounced
      have hmore : s.place.more = true := by
        rcases haccepted.awaited with hmore | hnone
        · exact hmore
        · rw [hannounced] at hnone
          cases hnone
      obtain ⟨-, -, hlimit⟩ := hbefore hannounced
      exact ⟨(hlimit hmore).1, .inr (hlimit hmore).2⟩
  have hahead : more = true → 1 ≤ records.length := fun hmore =>
    List.length_pos_of_ne_nil (haccepted.ahead hmore)
  have hposition := haccepted.position
  have hlimit := haccepted.limit
  have hmore := haccepted.more
  refine ⟨?_, hpaced, ?_, fun hnone => ?_, fun found hfound => ?_⟩
  · rw [hplace]
    exact { ht with runs := fun hruns => hruns }
  · rw [hplace, List.length_append, ← h.position, ← hposition]
  · rw [hplace] at hnone
    cases hnone
  · rw [hplace] at hfound ⊢
    cases hfound
    dsimp only
    refine ⟨hlimit, ?_, fun hmore' => ?_⟩
    · omega
    · have hone := hahead hmore'
      rw [hmore', eq_comm, decide_eq_true_iff] at hmore
      omega

/-- A call keeps the invariant, and goes on in its round or starts the next one. -/
lemma Confined.call (h : Confined s announced) (ht : Session.Proceeds BatchesValid s input t)
    (hpaced : t.failed = false → t.Paced) :
    Confined t (announced.next s input t)
      ∧ ((announced.next s input t).round = announced.round + 1
        ∨ (announced.next s input t).round = announced.round
          ∧ s.place.position ≤ t.place.position
          ∧ ∀ total, s.place.total = some total → t.place.total = some total) := by
  rcases ht with ⟨hidle, hruns, ht⟩ | ht
  · obtain ⟨hnext, hconfined⟩ := Confined.start announced input hidle hruns ht hpaced
    exact ⟨hconfined, .inl (by rw [hnext])⟩
  · have hnext := next_of_going announced input ht.runs
    rcases s.arrival_cases input with ⟨offset, total, records, more, rfl, haccepts⟩ | ⟨hplace, hno⟩
    · obtain ⟨-, haccepted, -⟩ := Session.accepted_of_accepts guards_batchesValid h.within haccepts
      have harrival : s.arrival (.receive (.page offset total records more))
          = ⟨offset + records.length, more, some total⟩ := if_pos haccepts
      have hnext : announced.next s (.receive (.page offset total records more)) t
          = ⟨announced.round, announced.keys ++ records, announced.pages + 1⟩ :=
        hnext.trans (if_pos haccepts)
      rw [harrival] at ht
      have hplace : t.place = ⟨offset + records.length, more, some total⟩ := ht.stands
      rw [hnext]
      refine ⟨h.page haccepted ht hpaced, .inr ⟨rfl, ?_, fun before hbefore => ?_⟩⟩
      · rw [hplace, ← haccepted.position]
        exact Nat.le_add_right _ _
      · rw [hplace, haccepted.constant before hbefore]
    · have hnext : announced.next s input t = announced := by
        rw [hnext]
        split
        · next offset total records more =>
          rw [hno offset total records more rfl, if_neg Bool.false_ne_true]
        · rfl
      rw [hplace] at ht
      have hsame : t.place = s.place := ht.stands
      rw [hnext]
      refine ⟨⟨?_, hpaced, ?_, ?_, ?_⟩, .inr ⟨rfl, ?_, ?_⟩⟩
      · rw [hsame]
        exact { ht with runs := fun hruns => hruns }
      · rw [hsame]
        exact h.position
      · rw [hsame]
        exact h.unannounced
      · rw [hsame]
        exact h.limit
      · rw [hsame]
      · rw [hsame]
        exact fun _ htotal => htotal

/-- A call of a session that keeps the invariant. -/
lemma Confined.proceeds (h : Confined s announced) (input : Input) :
    Session.Proceeds BatchesValid s input ((Peer.code input).exec s).2
      ∧ (((Peer.code input).exec s).2.failed = false → ((Peer.code input).exec s).2.Paced) := by
  have hroom : s.failed = false →
      s.pull.download.isSome = true → s.pull.staged.length + 1 ≤ inventoryPage := by
    intro hopened hsome
    have hload := (h.paced hopened).load
    rw [if_pos hsome] at hload
    omega
  cases input with
  | receive message =>
    refine ⟨exec_of_wp (Session.proceeds_receive guards_batchesValid h.within hroom message), ?_⟩
    have hconduct := Session.wp_receive h.paced message
    exact exec_of_wp (wp_mono hconduct (fun _ _ ht => ht.paced h.paced)
      fun _ _ hfailed hopened => absurd (hopened.symm.trans hfailed) Bool.false_ne_true)
  | tick =>
    refine ⟨exec_of_wp (Session.within_tick guards_batchesValid h.within), ?_⟩
    have hconduct := Session.wp_tick (s := s) none
    exact exec_of_wp (wp_mono hconduct (fun _ _ ht => ht.1.paced h.paced)
      fun _ _ hfailed hopened => absurd (hopened.symm.trans hfailed) Bool.false_ne_true)

end

namespace GoesOn

variable {first second third : Peer R × Announced}

omit [ReplicationStorage R] in
lemma refl (state : Peer R × Announced) : GoesOn state state :=
  ⟨Nat.le_refl _, fun _ => Nat.le_refl _, fun _ _ htotal => htotal⟩

omit [ReplicationStorage R] in
/-- Nothing is said across the start of a round. -/
lemma of_new (h : second.2.round = first.2.round + 1) : GoesOn first second :=
  ⟨by omega, fun heq => by omega, fun heq => by omega⟩

omit [ReplicationStorage R] in
lemma trans (h : GoesOn first second) (h' : GoesOn second third) : GoesOn first third := by
  -- no round was started in between when none was started at all
  have hround := Nat.le_trans h.round h'.round
  have hboth : first.2.round = third.2.round →
      first.2.round = second.2.round ∧ second.2.round = third.2.round := by
    intro heq
    have hfirst := h.round
    have hsecond := h'.round
    omega
  refine ⟨hround, fun heq => ?_, fun heq total htotal => ?_⟩
  · exact Nat.le_trans (h.position (hboth heq).1) (h'.position (hboth heq).2)
  · exact h'.total (hboth heq).2 total (h.total (hboth heq).1 total htotal)

end GoesOn

/-- One event keeps the invariant and goes on in its round or starts the next one. -/
lemma confined_track {state : Peer R × Announced} (h : Confined state.1.session state.2)
    (event : Peer.Event R) : Confined (Peer.track state event).1.session (Peer.track state event).2
      ∧ GoesOn state (Peer.track state event) := by
  cases event with
  | call input =>
    obtain ⟨hproceeds, hpaced⟩ := h.proceeds input
    obtain ⟨hconfined, hround⟩ := h.call hproceeds hpaced
    refine ⟨hconfined, ?_⟩
    show GoesOn state (state.1.take input, state.2.next state.1.session input _)
    rcases hround with hnew | ⟨hsame, hposition, htotal⟩
    · exact .of_new hnew
    · exact ⟨Nat.le_of_eq hsame.symm, fun _ => hposition, fun _ => htotal⟩
  | change f =>
    have hsame : Session.SamePull state.1.session (Peer.track state (.change f)).1.session :=
      ⟨rfl, rfl⟩
    refine ⟨?_, Nat.le_refl _, fun _ => Nat.le_refl _, fun _ _ htotal => htotal⟩
    exact {
      within := h.within.congr (show BatchesValid _ from h.within.storage) rfl
      paced := fun hopened => hsame.paced (h.paced hopened)
      position := h.position
      unannounced := h.unannounced
      limit := h.limit }

omit [ReplicationStorage R] in
lemma confined_new (store : R) : Confined (Peer.new store).session {} where
  within := {
    storage := fun _ _ hmem => by cases hmem
    staged := Nat.zero_le _
    stagedBytes := rfl
    batch := Nat.zero_le _
    derived := fun _ hmem => by cases hmem
    buffer := fun _ hdownload => by cases hdownload
    sent := Nat.zero_le _
    stands := rfl
    asking := fun hwaiting => by cases hwaiting
    runs := fun hruns => hruns }
  paced _ := Session.paced_new _
  position := rfl
  unannounced _ := rfl
  limit _ htotal := by cases htotal

/-- A run keeps the invariant. -/
lemma confined_run {state : Peer R × Announced} (h : Confined state.1.session state.2)
    (events : List (Peer.Event R)) :
    Confined (events.foldl Peer.track state).1.session (events.foldl Peer.track state).2
      ∧ GoesOn state (events.foldl Peer.track state) := by
  induction events generalizing state with
  | nil => exact ⟨h, .refl state⟩
  | cons event events ih =>
    obtain ⟨hconfined, hstep⟩ := confined_track h event
    obtain ⟨hrun, hlater⟩ := ih hconfined
    exact ⟨hrun, hstep.trans hlater⟩

/-- What is announced is kept beside a run, and does not change it. -/
lemma tracked_run (store : R) (events : List (Peer.Event R)) :
    (Peer.tracked store events).1 = (Peer.new store).run events := by
  have hfold : ∀ state : Peer R × Announced,
      (events.foldl Peer.track state).1 = state.1.run events := by
    induction events with
    | nil => exact fun _ => rfl
    | cons event events ih =>
      intro state
      have hstep : (Peer.track state event).1 = state.1.step event := by
        cases event <;> rfl
      rw [List.foldl_cons, ih, hstep]
      rfl
  exact hfold _

/-- A page that announces more moves the position on. -/
lemma Confined.advances {peer : Peer R} {announced : Announced}
    (h : Confined peer.session announced) {offset total : ℕ} {records : List RecordKey}
    (haccepts : peer.session.accepts offset total records true = true) :
    peer.session.pull.position
      < (peer.step (.call (.receive (.page offset total records true)))).session.pull.position := by
  obtain ⟨hopened, haccepted, hwaiting⟩ :=
    Session.accepted_of_accepts guards_batchesValid h.within haccepts
  have hrecords := List.length_pos_of_ne_nil (haccepted.ahead rfl)
  have hposition := haccepted.position
  have harrival : peer.session.arrival (.receive (.page offset total records true))
      = ⟨offset + records.length, true, some total⟩ := if_pos haccepts
  rcases (h.proceeds (.receive (.page offset total records true))).1 with ⟨hidle, -⟩ | ht
  · have hruns := (h.paced hopened).synchronizing hwaiting
    rw [hidle] at hruns
    cases hruns
  · rw [harrival] at ht
    have hplace := congrArg Session.Place.position ht.stands
    refine Nat.lt_of_lt_of_eq ?_ hplace.symm
    show peer.session.pull.position < offset + records.length
    have hbefore : peer.session.place.position = peer.session.pull.position := rfl
    omega

/-- A hostile peer cannot exhaust a session. Whatever messages it sends, and whatever the storage
does in between, the session stays within its limits and moves on in its rounds. -/
theorem hostile_peer_is_contained (store : R) (events later : List (Peer.Event R)) :
    (Peer.tracked store events).1 = (Peer.new store).run events
      ∧ Contained (Peer.tracked store events)
      ∧ GoesOn (Peer.tracked store events) (Peer.tracked store (events ++ later)) := by
  have h : Confined (Peer.tracked store events).1.session (Peer.tracked store events).2 :=
    (@confined_run _ _ _ _ _ (Peer.new store, {}) (confined_new store) events).1
  refine ⟨tracked_run store events, ?_, ?_⟩
  · have hsent := h.within.sent
    exact {
      download := h.within.buffer
      staged := h.within.staged
      stagedBytes := h.within.stagedBytes
      batch := h.within.batch
      ingested := h.within.storage
      unacked := Nat.le_trans (Nat.le_add_right _ _) hsent
      active := by cases (Peer.tracked store events).1.session.source.active <;> simp
      position := h.position
      limit := fun total htotal => ⟨(h.limit total htotal).1, (h.limit total htotal).2.1⟩
      unannounced := h.unannounced
      advance := fun _ _ _ haccepts => h.advances haccepts }
  · unfold Peer.tracked
    rw [List.foldl_append]
    exact (confined_run h later).2

end EditChain.Sync
