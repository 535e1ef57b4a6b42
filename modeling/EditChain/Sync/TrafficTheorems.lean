import EditChain.Lib.Keeps
import EditChain.Sync.Wire

/-!
# Traffic between two sessions

What a session sends is paced by its own requests: it asks for one thing at a time, and
acknowledges a batch only in answer to a reply. The invariant of a channel follows one side's
requests and notices out and the other side's replies back, so that the number of messages in
flight stays below every limit of the transport.
-/

namespace EditChain.Sync

open Core Fallible

/-! ## Kinds of messages -/

/-- What a message is for. -/
inductive Message.Kind where
  | hello
  | request
  | reply
  | notice
deriving DecidableEq, Repr

/-- Requests and notices are sent by the pulling side, replies by the answering side. -/
def Message.kind : Message → Message.Kind
  | .hello .. => .hello
  | .inventory .. | .need .. => .request
  | .page .. | .chunk .. | .missing .. => .reply
  | .ack .. | .checked .. => .notice

/-- The number of messages of a kind. -/
def tally (kind : Message.Kind) (messages : List Message) : ℕ :=
  messages.countP fun message => message.kind = kind

section Tally

variable {kind : Message.Kind} {messages : List Message}

@[simp] lemma tally_nil : tally kind [] = 0 := rfl

@[simp] lemma tally_append (others : List Message) :
    tally kind (messages ++ others) = tally kind messages + tally kind others :=
  List.countP_append ..

@[simp] lemma tally_cons (message : Message) :
    tally kind (message :: messages)
      = tally kind messages + if message.kind = kind then 1 else 0 := by
  simp [tally, List.countP_cons]

lemma tally_eq_zero : tally kind messages = 0 ↔ ∀ message ∈ messages, message.kind ≠ kind := by
  simp [tally, List.countP_eq_zero]

/-- A message of one kind does not count for another. -/
lemma tally_of_forall {other : Message.Kind} (h : ∀ message ∈ messages, message.kind = other)
    (hne : other ≠ kind) : tally kind messages = 0 := by
  rw [tally_eq_zero]
  intro message hmessage
  rw [h message hmessage]
  exact hne

lemma tally_le_length : tally kind messages ≤ messages.length := List.countP_le_length

/-- Every message is of one kind. -/
lemma length_eq_tallies (messages : List Message) :
    messages.length = tally .hello messages + tally .request messages + tally .reply messages
      + tally .notice messages := by
  induction messages with
  | nil => rfl
  | cons message messages ih =>
    rw [List.length_cons, ih]
    cases hkind : message.kind <;> simp only [tally_cons, hkind] <;> simp <;> omega

end Tally

/-! ## Frames -/

/-- A page or a chunk within its limit. -/
def Message.Fits : Message → Prop
  | .page _ _ records _ => records.length ≤ inventoryPage
  | .chunk _ _ _ _ bytes => bytes.length ≤ chunkBytes
  | _ => True

/-- A hello of a namespace within its limit. -/
def Message.Named : Message → Prop
  | .hello _ _ space => space.utf8ByteSize ≤ 1024
  | _ => True

lemma Message.fits_of_kind {message : Message} (h : message.kind ≠ .reply) : message.Fits := by
  cases message with
  | page | chunk => exact absurd rfl h
  | hello | inventory | need | missing | ack | checked => trivial

lemma length_digestBytes (digest : Digest) : (digestBytes digest).length = 32 := by
  simp [digestBytes]

lemma RecordKey.length_payload (key : RecordKey) : key.payload.length = 64 := by
  simp [RecordKey.payload, length_digestBytes]

/-- The longest messages are chunks, and they leave room in the frame. -/
lemma Message.length_payload_le {message : Message} (hfits : message.Fits)
    (hnamed : message.Named) : message.payload.length ≤ 66000 := by
  have htag := fun n => Postcard.length_u32_le n
  have hblob := Postcard.length_option_le fun digest => Nat.le_of_eq (length_digestBytes digest)
  have hkey := fun key => Nat.le_of_eq (RecordKey.length_payload key)
  cases message with
  | hello version encoding space =>
    have hspace := Postcard.length_string_le space
    have hversion := Postcard.length_u16_le version
    have hencoding := Postcard.length_u16_le encoding
    have hshort : space.utf8ByteSize ≤ 1024 := hnamed
    have := htag 0
    simp only [Message.payload, List.length_append]
    omega
  | inventory after =>
    have hafter := Postcard.length_option_le hkey after
    have := htag 1
    simp only [Message.payload, List.length_append]
    omega
  | page offset total records more =>
    have hrecords := Postcard.length_seq_le hkey records
    have hshort : records.length ≤ 128 := hfits
    have hoffset := Postcard.length_u64_le offset
    have htotal := Postcard.length_u64_le total
    have := htag 2
    simp only [Message.payload, List.length_append, Postcard.length_bool]
    omega
  | need record blob offset =>
    have := htag 3
    have := htag offset
    have := hblob blob
    have := hkey record
    simp only [Message.payload, List.length_append]
    omega
  | chunk record blob offset total bytes =>
    have hbytes : (Postcard.seq (fun byte => [byte]) bytes).length ≤ 10 + bytes.length * 1 :=
      Postcard.length_seq_le (fun _ => Nat.le_refl 1) bytes
    have hshort : bytes.length ≤ 64 * 1024 := hfits
    have := htag 4
    have := htag offset
    have := htag total
    have := hblob blob
    have := hkey record
    simp only [Message.payload, List.length_append]
    omega
  | missing record blob =>
    have := htag 5
    have := hblob blob
    have := hkey record
    simp only [Message.payload, List.length_append]
    omega
  | ack record blob =>
    have := htag 6
    have := hblob blob
    have := hkey record
    simp only [Message.payload, List.length_append]
    omega
  | checked position =>
    have := htag 7
    have := Postcard.length_u64_le position
    simp only [Message.payload, List.length_append]
    omega

/-- A message within its limits encodes. -/
lemma encodeMessage_of_fits {message : Message} (hfits : message.Fits) (hnamed : message.Named) :
    encodeMessage message
      = .ok (ByteString.leBytes 4 message.payload.length ++ message.payload) := by
  have hlength := Message.length_payload_le hfits hnamed
  have hframe : ¬ maxFrameBytes < message.payload.length := by
    unfold maxFrameBytes
    omega
  have hsmall : ¬ 2 ^ 32 ≤ message.payload.length := by omega
  unfold encodeMessage
  rw [if_neg hframe, if_neg hsmall]
  rfl

/-! ## The pace of a session -/

variable {Op : Type} [Schema Op] [Blake3] {R : Type}

namespace Session

/-- The session has asked for a page or an object and has no answer yet. -/
def Waiting (s : Session R) : Prop := s.pull.waitingPage = true ∨ s.pull.download ≠ none

/-- The same state of the pulling side. -/
structure SamePull (s t : Session R) : Prop where
  pull : t.pull = s.pull
  synchronizing : t.progress.synchronizing = s.progress.synchronizing

/-- What a session keeps between its calls. -/
structure Paced (s : Session R) : Prop where
  /-- Each key of the page is requested, in transfer, staged or done. -/
  load : s.pull.records.length + s.pull.staged.length + (if s.pull.download.isSome then 1 else 0)
    ≤ inventoryPage
  /-- A page is asked for when the one before it is done. -/
  asking : s.pull.waitingPage = true → s.pull.staged = [] ∧ s.pull.download = none
  /-- Nothing is asked for between two rounds. -/
  idle : s.progress.synchronizing = false → ¬ s.Waiting

/-- A session at work on its page with nothing asked for, and with room for `n` more notices. -/
structure Busy (n : ℕ) (s : Session R) : Prop where
  turned : s.pull.waitingPage = false
  free : s.pull.download = none
  synchronizing : s.progress.synchronizing = true
  load : n + s.pull.records.length + s.pull.staged.length ≤ inventoryPage

/-- The replies of a session to a reply: notices, and at most one request, for which it then
waits. -/
structure Worked (replies : List Message) (t : Session R) : Prop where
  paced : t.Paced
  shape : ∃ notices requests, replies = notices ++ requests ∧
    (∀ message ∈ notices, message.kind = .notice) ∧ notices.length ≤ inventoryPage + 1 ∧
    (requests = [] ∨ ∃ request, requests = [request] ∧ request.kind = .request ∧ t.Waiting)

section Pace

variable {s t : Session R} {n : ℕ} {replies : List Message}

lemma SamePull.waiting (h : SamePull s t) : t.Waiting ↔ s.Waiting := by
  unfold Waiting
  rw [h.pull]

lemma SamePull.paced (h : SamePull s t) (hs : s.Paced) : t.Paced where
  load := by
    rw [h.pull]
    exact hs.load
  asking := by
    rw [h.pull]
    exact hs.asking
  idle := by
    rw [h.synchronizing, h.waiting]
    exact hs.idle

lemma SamePull.worked (h : SamePull s t) (hs : s.Worked replies) : t.Worked replies where
  paced := h.paced hs.paced
  shape := by
    rw [h.waiting]
    exact hs.shape

/-- A waiting session is in a round. -/
lemma Paced.synchronizing (h : s.Paced) (hwaiting : s.Waiting) :
    s.progress.synchronizing = true := by
  by_contra hidle
  exact h.idle (Bool.not_eq_true _ ▸ hidle) hwaiting

lemma paced_new (replica : R) : (Session.new replica).Paced where
  load := Nat.zero_le _
  asking h := by cases h
  idle _ h := by
    rcases h with h | h
    · cases h
    · exact h rfl

/-- The page has not changed, only what is staged. -/
lemma Busy.frame (h : s.Busy n) {m : ℕ} (hwaiting : t.pull.waitingPage = s.pull.waitingPage)
    (hdownload : t.pull.download = s.pull.download)
    (hsynchronizing : t.progress.synchronizing = s.progress.synchronizing)
    (hrecords : t.pull.records = s.pull.records)
    (hload : m + t.pull.staged.length ≤ n + s.pull.staged.length) : t.Busy m where
  turned := hwaiting.trans h.turned
  free := hdownload.trans h.free
  synchronizing := hsynchronizing.trans h.synchronizing
  load := by
    have hs := h.load
    rw [hrecords]
    omega

end Pace

/-! ### Parts of a call -/

/-- A call to the storage changes the storage only. -/
lemma wp_onReplica_any {s : Session R} {α : Type} {m : Fallible IoError R α}
    {ok : α → Session R → Prop} {err : IoError → Session R → Prop}
    (hok : ∀ a replica, ok a { s with replica := replica })
    (herr : ∀ e replica, err e { s with replica := replica }) : wp (onReplica m) ok err s := by
  unfold onReplica
  rw [wp_zoom]
  apply wp_of_exec
  · intro a replica _
    exact hok a replica
  · intro e replica _
    exact herr e replica

variable [ReplicationStorage R] {s : Session R} {replies : List Message} {n : ℕ}

/-- Flushing turns staged records into notices. -/
lemma wp_flush (h : s.Busy (replies.length + n))
    (hnotices : ∀ message ∈ replies, message.kind = .notice) :
    wp (flush replies)
      (fun r t => t.Busy (r.length + n) ∧ (∀ message ∈ r, message.kind = .notice) ∧
        t.pull.staged = [] ∧ t.pull.records = s.pull.records)
      (fun _ _ => True) s := by
  unfold flush
  rw [wp_bind, wp_get, wp_ite]
  constructor
  · intro hempty
    exact ⟨h, hnotices, hempty, rfl⟩
  · intro _
    rw [wp_bind]
    unfold onLocal
    rw [wp_zoom]
    apply wp_of_exec
    · intro _ p _
      rw [wp_bind, wp_modify, wp_pure]
      refine ⟨?_, ?_, rfl, rfl⟩
      · refine h.frame rfl rfl rfl rfl ?_
        show (replies ++ _).length + n + 0 ≤ _
        rw [List.length_append, List.length_map]
        omega
      · intro message hmessage
        rcases List.mem_append.mp hmessage with hold | hack
        · exact hnotices message hold
        · obtain ⟨record, _, rfl⟩ := List.mem_map.mp hack
          rfl
    · intro _ _ _
      trivial

lemma wp_flushIf (limit : Prop) [Decidable limit] (h : s.Busy (replies.length + n))
    (hnotices : ∀ message ∈ replies, message.kind = .notice) :
    wp (flushIf limit replies)
      (fun r t => t.Busy (r.length + n) ∧ ∀ message ∈ r, message.kind = .notice)
      (fun _ _ => True) s := by
  unfold flushIf
  rw [wp_ite]
  constructor
  · intro _
    apply wp_weaken (wp_flush h hnotices)
    intro r t ht
    exact ⟨ht.1, ht.2.1⟩
  · intro _
    exact ⟨h, hnotices⟩

/-- A received object is worth one notice, now or when it is flushed. -/
lemma wp_complete {download : Download} (hdownload : s.pull.download = some download)
    (h : s.takeDownload.Busy 1) :
    wp (complete [])
      (fun r t => t.Busy r.length ∧ ∀ message ∈ r, message.kind = .notice) (fun _ _ => True) s := by
  unfold complete
  rw [wp_bind, wp_get, hdownload]
  dsimp only
  rw [wp_bind, wp_modify]
  cases download.object.blob with
  | some hash =>
    show wp (completeBlob download hash []) _ _ _
    unfold completeBlob
    rw [wp_bind]
    apply wp_onReplica_any
    · intro _ replica
      rw [wp_bind, wp_modify, wp_pure]
      refine ⟨h.frame rfl rfl rfl rfl (Nat.le_refl _), ?_⟩
      intro message hmessage
      rw [List.nil_append, List.mem_singleton] at hmessage
      rw [hmessage]
      rfl
    · intro _ _
      trivial
  | none =>
    show wp (completeRecord download []) _ _ _
    unfold completeRecord
    rw [wp_bind, wp_lift]
    refine ⟨fun key _ => ?_, fun _ _ => trivial⟩
    rw [wp_guard]
    refine ⟨fun _ => trivial, fun _ => ?_⟩
    rw [wp_bind, wp_get, wp_bind]
    -- the record being staged is the spare place of the batch before it
    have hspare : s.takeDownload.Busy (([] : List Message).length + 1) := h
    apply wp_weaken (wp_flushIf _ hspare (by simp))
    intro r t ht
    rw [wp_bind, wp_modify, wp_bind, wp_get]
    apply wp_flushIf _ (n := 0) _ ht.2
    refine ht.1.frame rfl rfl rfl rfl ?_
    show r.length + 0 + (t.pull.staged ++ [_]).length ≤ _
    rw [List.length_append, List.length_singleton]
    omega

/-- What the search for content leaves alone. -/
def searchFrame (s : Session R) :=
  (s.pull.waitingPage, s.pull.download, s.progress.synchronizing, s.pull.records, s.pull.staged)

omit [ReplicationStorage R] in
lemma keeps_onReplica {α : Type} (m : Fallible IoError R α) :
    Keeps searchFrame (onReplica m : Fallible IoError (Session R) α) :=
  fun _ => wp_onReplica_any (fun _ _ => rfl) fun _ _ => rfl

lemma keeps_findBlob (key : RecordKey) (hash : Digest) :
    Keeps searchFrame (findBlob key hash : Fallible IoError (Session R) Unit) := by
  unfold findBlob
  apply keeps_get.bind
  intro session
  apply Keeps.ite
  · intro _
    refine Keeps.bind (keeps_modify fun _ => rfl) fun _ => ?_
    apply (keeps_onReplica _).bind
    intro confirmed
    apply Keeps.ite
    · intro _
      exact keeps_modify fun _ => rfl
    · intro _
      exact keeps_pure _
  · intro _
    exact keeps_pure _

lemma keeps_searchBlobs : Keeps searchFrame (searchBlobs : Fallible IoError (Session R) Unit) := by
  unfold searchBlobs
  apply keeps_get.bind
  intro session
  apply Keeps.ite
  · intro _
    unfold findBlobs
    apply keeps_get.bind
    intro _
    apply keeps_forM
    intro key
    unfold findKey
    apply keeps_get.bind
    intro _
    apply (keeps_onReplica _).bind
    intro hashes
    apply Keeps.guard
    exact keeps_forM (keeps_findBlob key) _
  · intro _
    exact keeps_pure _

omit [ReplicationStorage R] in
/-- Work that ends with the request for an object. -/
lemma Worked.of_need {object : Object} {offset : ℕ} {request : Message}
    (hrequest : object.need offset = .ok request) {download : Download}
    (hdownload : s.pull.download = some download) (hturned : s.pull.waitingPage = false)
    (hsynchronizing : s.progress.synchronizing = true)
    (hload : s.pull.records.length + s.pull.staged.length + 1 ≤ inventoryPage)
    (hnotices : ∀ message ∈ replies, message.kind = .notice)
    (hreplies : replies.length ≤ inventoryPage) : s.Worked (replies ++ [request]) := by
  have hkind : request.kind = .request := by
    unfold Object.need at hrequest
    split at hrequest
    · cases hrequest
    · cases hrequest
      rfl
  have hwaiting : s.Waiting := .inr (by rw [hdownload]; exact Option.some_ne_none _)
  refine ⟨⟨?_, ?_, ?_⟩, replies, [request], rfl, hnotices, ?_, .inr ⟨request, rfl, hkind, hwaiting⟩⟩
  · rw [hdownload]
    exact hload
  · intro hpage
    exact absurd (hturned.symm.trans hpage) Bool.false_ne_true
  · intro hidle
    exact absurd (hidle.symm.trans hsynchronizing) Bool.false_ne_true
  · omega

omit [ReplicationStorage R] in
/-- Requesting an object ends the work with a request. -/
lemma wp_download {object : Object} (hturned : s.pull.waitingPage = false)
    (hsynchronizing : s.progress.synchronizing = true)
    (hload : s.pull.records.length + s.pull.staged.length + 1 ≤ inventoryPage)
    (hnotices : ∀ message ∈ replies, message.kind = .notice)
    (hreplies : replies.length ≤ inventoryPage) :
    wp (download object replies) (fun r t => t.Worked r) (fun _ _ => True) s := by
  unfold download
  rw [wp_bind, wp_lift]
  refine ⟨fun request hrequest => ?_, fun _ _ => trivial⟩
  rw [wp_bind, wp_modify, wp_pure]
  exact Worked.of_need hrequest rfl hturned hsynchronizing hload hnotices hreplies

omit [ReplicationStorage R] in
/-- Confirming a page ends the work with a request, or ends the round. -/
lemma wp_finishPage (h : s.Busy replies.length) (hstaged : s.pull.staged = [])
    (hrecords : s.pull.records = [])
    (hnotices : ∀ message ∈ replies, message.kind = .notice) :
    wp (finishPage replies) (fun r t => t.Worked r) (fun _ _ => True) s := by
  have hlength := h.load
  have hconfirmed : ∀ message ∈ replies ++ [Message.checked s.pull.position],
      message.kind = .notice := by
    intro message hmessage
    rcases List.mem_append.mp hmessage with hold | hnew
    · exact hnotices message hold
    · rw [List.mem_singleton.mp hnew]
      rfl
  have hshort : (replies ++ [Message.checked s.pull.position]).length ≤ inventoryPage + 1 := by
    rw [List.length_append, List.length_singleton]
    omega
  have hload : s.pull.records.length + s.pull.staged.length
      + (if s.pull.download.isSome then 1 else 0) ≤ inventoryPage := by
    rw [hrecords, hstaged, h.free]
    exact Nat.zero_le _
  unfold finishPage
  rw [wp_bind, wp_modify, wp_bind, wp_get, wp_ite]
  constructor
  · intro _
    rw [wp_bind, wp_modify, wp_pure]
    refine ⟨⟨hload, fun _ => ⟨hstaged, h.free⟩, ?_⟩, _, _, rfl, hconfirmed, hshort,
      .inr ⟨_, rfl, rfl, .inl rfl⟩⟩
    intro hidle
    exact absurd (hidle.symm.trans h.synchronizing) Bool.false_ne_true
  · intro _
    rw [wp_bind, wp_modify, wp_pure]
    refine ⟨⟨hload, fun _ => ⟨hstaged, h.free⟩, ?_⟩, _, [], (List.append_nil _).symm, hconfirmed,
      hshort, .inl rfl⟩
    rintro _ (hpage | hobject)
    · exact absurd (h.turned.symm.trans hpage) Bool.false_ne_true
    · exact hobject h.free

/-- The work on a page goes on until something is asked for, or the page is done. -/
lemma wp_advance (h : s.Busy replies.length)
    (hnotices : ∀ message ∈ replies, message.kind = .notice) :
    wp (advance replies) (fun r t => t.Worked r) (fun _ _ => True) s := by
  have hload := h.load
  unfold advance
  rw [wp_bind, wp_get]
  cases hrecords : s.pull.records with
  | cons record rest =>
    rw [hrecords, List.length_cons] at hload
    dsimp only
    rw [wp_bind, wp_modify]
    refine wp_download h.turned h.synchronizing ?_ hnotices (by omega)
    show rest.length + s.pull.staged.length + 1 ≤ _
    omega
  | nil =>
    dsimp only
    rw [wp_bind]
    have hspare : s.Busy (replies.length + 0) := h
    apply wp_weaken (wp_flush hspare hnotices)
    intro r t ht
    obtain ⟨hbusy, hacks, hstaged, hnone⟩ := ht
    rw [wp_bind]
    refine wp_mono (keeps_searchBlobs t) ?_ fun _ _ _ => trivial
    intro _ u hu
    simp only [searchFrame, Prod.mk.injEq] at hu
    obtain ⟨hpage, hdownload, hsynchronizing, hkeys, hbatch⟩ := hu
    have hbusy' : u.Busy r.length := by
      refine hbusy.frame hpage hdownload hsynchronizing hkeys ?_
      rw [hbatch]
      exact Nat.le_refl _
    have hempty : u.pull.records = [] := by rw [hkeys, hnone, hrecords]
    have hflushed : u.pull.staged = [] := by rw [hbatch, hstaged]
    rw [wp_bind, wp_get]
    cases hblobs : u.pull.blobs with
    | nil => exact wp_finishPage hbusy' hflushed hempty hacks
    | cons object rest =>
      dsimp only
      rw [wp_bind, wp_modify]
      have hroom := hbusy'.load
      refine wp_download hbusy'.turned hbusy'.synchronizing ?_ hacks (by omega)
      show u.pull.records.length + u.pull.staged.length + 1 ≤ _
      rw [hempty, hflushed]
      decide

/-! ### Replies of the peer -/

omit [ReplicationStorage R] in
/-- A page starts the work on its keys. -/
lemma wp_page (h : s.Paced) (offset total : ℕ) (records : List RecordKey) (more : Bool) :
    wp (page offset total records more) (fun _ t => t.Busy 0) (fun _ _ => True) s := by
  unfold page
  rw [wp_bind, wp_get, wp_guard]
  refine ⟨fun _ => trivial, fun hpage => ?_⟩
  rw [wp_guard]
  refine ⟨fun _ => trivial, fun _ => ?_⟩
  rw [wp_guard]
  refine ⟨fun _ => trivial, fun _ => ?_⟩
  rw [wp_guard]
  refine ⟨fun _ => trivial, fun _ => ?_⟩
  have hasked : s.pull.waitingPage = true := by
    by_contra hnot
    exact hpage (.inl hnot)
  have hshort : records.length ≤ inventoryPage := by
    by_contra hlong
    exact hpage (.inr (.inl (by omega)))
  obtain ⟨hstaged, hfree⟩ := h.asking hasked
  refine ⟨rfl, hfree, h.synchronizing (.inl hasked), ?_⟩
  have hkeys := List.length_filter_le (fun key => !s.localSnapshot.contains key) records
  show 0 + (records.filter _).length + s.pull.staged.length ≤ inventoryPage
  rw [hstaged, List.length_nil]
  omega

omit [ReplicationStorage R] in
/-- The place of a finished download is free for a notice. -/
lemma Paced.takeDownload (h : s.Paced) {download : Download}
    (hdownload : s.pull.download = some download) : s.takeDownload.Busy 1 where
  turned := by
    by_contra hpage
    have hnone := (h.asking (Bool.not_eq_false _ ▸ hpage)).2
    rw [hdownload] at hnone
    cases hnone
  free := rfl
  synchronizing := h.synchronizing (.inr (by rw [hdownload]; exact Option.some_ne_none _))
  load := by
    have hload := h.load
    rw [hdownload, Option.isSome_some, if_pos rfl] at hload
    show 1 + s.pull.records.length + s.pull.staged.length ≤ inventoryPage
    omega

/-- A chunk is answered by a request for the next one, or completes the object. -/
lemma wp_chunk (h : s.Paced) (object : Object) (offset total : ℕ) (bytes : Bytes) :
    wp (chunk object offset total bytes) (fun r t => t.Worked r) (fun _ _ => True) s := by
  unfold chunk
  rw [wp_bind, wp_get]
  cases hdownload : s.pull.download with
  | none => trivial
  | some download =>
    have hbusy := h.takeDownload hdownload
    dsimp only
    rw [wp_bind, wp_lift]
    refine ⟨fun done _ => ?_, fun _ _ => trivial⟩
    rw [wp_bind, wp_modify, wp_ite]
    set later := ((Download.append object offset total bytes).exec download).2
    constructor
    · intro _
      rw [wp_bind]
      apply wp_weaken (wp_complete (show _ = some later from rfl) _)
      · intro r t ht
        exact wp_advance ht.1 ht.2
      · exact ⟨hbusy.turned, rfl, hbusy.synchronizing, hbusy.load⟩
    · intro _
      rw [wp_bind, wp_lift]
      refine ⟨fun request hrequest => ?_, fun _ _ => trivial⟩
      have hroom : 1 + s.pull.records.length + s.pull.staged.length ≤ inventoryPage := hbusy.load
      have hnone : ∀ message ∈ ([] : List Message), message.kind = .notice := by simp
      show Worked ([] ++ [request]) _
      refine Worked.of_need hrequest rfl hbusy.turned hbusy.synchronizing ?_ hnone (Nat.zero_le _)
      show s.pull.records.length + s.pull.staged.length + 1 ≤ inventoryPage
      omega

/-- Content that the peer does not have is skipped. -/
lemma wp_missing (h : s.Paced) (object : Object) :
    wp (missing object) (fun r t => t.Worked r) (fun _ _ => True) s := by
  unfold missing
  rw [wp_bind, wp_get]
  cases hdownload : s.pull.download with
  | none => trivial
  | some download =>
    have hbusy := h.takeDownload hdownload
    have hload := hbusy.load
    dsimp only
    rw [wp_bind, wp_modify, wp_guard]
    refine ⟨fun _ => trivial, fun _ => ?_⟩
    rw [wp_bind, wp_modify]
    refine wp_advance (hbusy.frame rfl rfl rfl rfl ?_) (by simp)
    show 0 + s.takeDownload.pull.staged.length ≤ 1 + s.takeDownload.pull.staged.length
    omega

/-! ### Answers to the peer -/

/-- The answer is one reply within its limits, and pulling is not affected. -/
def Answers (s : Session R) (reply : Message) (t : Session R) : Prop :=
  reply.kind = .reply ∧ reply.Fits ∧ SamePull s t

omit [ReplicationStorage R] in
lemma wp_onSource {α : Type} {m : Fallible IoError (Source × R) α}
    {ok : α → Session R → Prop} {err : IoError → Session R → Prop}
    (h : wp m (fun a p => ok a { s with source := p.1, replica := p.2 })
      (fun e p => err e { s with source := p.1, replica := p.2 }) (s.source, s.replica)) :
    wp (onSource m) ok err s := by
  unfold onSource
  rw [wp_zoom]
  exact h

/-- A page is at most as long as a page may be. -/
lemma nextPage_fits (source : Source) : source.nextPage.Fits := by
  show (source.nextRecords).length ≤ inventoryPage
  unfold Source.nextRecords
  rw [List.length_take]
  exact Nat.min_le_left _ _

lemma wp_inventory (after : Option RecordKey) :
    wp (onSource (Source.inventory after)) (fun reply t => s.Answers reply t) (fun _ _ => True)
      s := by
  apply wp_onSource
  unfold Source.inventory
  rw [wp_bind, wp_get, wp_guard]
  refine ⟨fun _ => trivial, fun _ => ?_⟩
  rw [wp_bind]
  apply wp_of_exec
  · intro _ p _
    rw [wp_bind, wp_get, wp_bind]
    unfold Source.onSource
    rw [wp_zoom, wp_set, wp_pure]
    exact ⟨rfl, nextPage_fits _, rfl, rfl⟩
  · intro _ _ _
    trivial

/-- A chunk is at most as long as a chunk may be. -/
lemma wp_sendChunk {source : Source} (object : Object) (offset : ℕ) :
    wp (Source.sendChunk object offset) (fun reply _ => reply.kind = .reply ∧ reply.Fits)
      (fun _ _ => True) source := by
  unfold Source.sendChunk
  rw [wp_bind, wp_get]
  cases source.active with
  | none => trivial
  | some active =>
    dsimp only
    rw [wp_guard]
    refine ⟨fun _ => trivial, fun _ => ?_⟩
    rw [wp_guard]
    refine ⟨fun _ => trivial, fun _ => ?_⟩
    rw [wp_guard]
    refine ⟨fun _ => trivial, fun _ => ?_⟩
    rw [wp_bind, wp_set, wp_pure]
    refine ⟨rfl, ?_⟩
    show (List.take chunkBytes _).length ≤ chunkBytes
    rw [List.length_take]
    exact Nat.min_le_left _ _

lemma wp_need (object : Object) (offset : ℕ) :
    wp (onSource (Source.need object offset)) (fun reply t => s.Answers reply t) (fun _ _ => True)
      s := by
  have hchunk : ∀ p : Source × R, wp (Source.onSource (Source.sendChunk object offset))
      (fun reply q => s.Answers reply { s with source := q.1, replica := q.2 })
      (fun _ _ => True) p := by
    intro p
    unfold Source.onSource
    rw [wp_zoom]
    apply wp_weaken (wp_sendChunk object offset)
    intro reply _ hreply
    exact ⟨hreply.1, hreply.2, rfl, rfl⟩
  apply wp_onSource
  unfold Source.need
  rw [wp_bind, wp_get, wp_guard]
  refine ⟨fun _ => trivial, fun _ => ?_⟩
  rw [wp_ite]
  constructor
  · intro _
    rw [wp_guard]
    refine ⟨fun _ => trivial, fun _ => ?_⟩
    rw [wp_bind]
    apply wp_of_exec
    · intro loaded p _
      cases loaded with
      | none =>
        dsimp only
        unfold Source.onSource
        rw [wp_bind, wp_zoom, wp_modify, wp_pure]
        exact ⟨rfl, trivial, rfl, rfl⟩
      | some bytes =>
        dsimp only
        rw [wp_bind]
        apply wp_of_exec
        · intro _ q _
          exact hchunk q
        · intro _ _ _
          trivial
    · intro _ _ _
      trivial
  · intro _
    exact hchunk _

/-! ### Calls -/

/-- What one call of a session can do: from the state before, the message it takes in and the
messages it sends to the state after. -/
inductive Conduct (s t : Session R) : Option Message → List Message → Prop where
  /-- The call fails, and nothing is sent. -/
  | fail (input : Option Message) (failed : t.failed = true) : Conduct s t input []
  /-- Nothing is sent. -/
  | quiet (input : Option Message) (same : SamePull s t) (failed : t.failed = s.failed) :
      Conduct s t input []
  /-- A request is answered. -/
  | answer (request reply : Message) (hrequest : request.kind = .request)
      (hreply : reply.kind = .reply) (fits : reply.Fits) (same : SamePull s t)
      (failed : t.failed = s.failed) : Conduct s t (some request) [reply]
  /-- A round starts. -/
  | start (input : Option Message) (opened : s.failed = false)
      (idle : s.progress.synchronizing = false) (waiting : t.Waiting) (paced : t.Paced) :
      Conduct s t input [.inventory none]
  /-- A reply is taken in. -/
  | work (reply : Message) (replies : List Message) (hreply : reply.kind = .reply)
      (opened : s.failed = false) (worked : t.Worked replies) : Conduct s t (some reply) replies

omit [ReplicationStorage R] in
/-- A guarded call keeps a failure in mind. -/
lemma wp_guarded {α : Type} {m : Fallible IoError (Session R) α} {ok : α → Session R → Prop}
    {err : IoError → Session R → Prop}
    (h : wp m (fun a t => ok a { t with failed := false })
      (fun e t => err e { t with failed := true }) s) : wp (guarded m) ok err s := by
  unfold guarded
  apply wp_of_exec
  · intro a t ht
    cases hm : m.exec s with
    | mk result u =>
      simp only [exec_of, hm] at ht
      obtain ⟨rfl, rfl⟩ := Prod.mk.inj ht
      have hu := wp_eq_ok h hm
      exact hu
  · intro e t ht
    cases hm : m.exec s with
    | mk result u =>
      simp only [exec_of, hm] at ht
      obtain ⟨rfl, rfl⟩ := Prod.mk.inj ht
      have hu := wp_eq_error h hm
      exact hu

omit [ReplicationStorage R] in
/-- An open session makes the call; a failed one refuses it. -/
lemma wp_opened {α : Type} {m : Fallible IoError (Session R) α} {ok : α → Session R → Prop}
    (h : s.failed = false → wp m (fun a t => ok a { t with failed := false }) (fun _ _ => True) s) :
    wp (do ensureOpen; guarded m) ok (fun _ t => t.failed = true) s := by
  unfold ensureOpen
  rw [wp_bind, wp_bind, wp_get, wp_ite]
  constructor
  · intro hfailed
    exact hfailed
  · intro hopened
    apply wp_guarded
    apply wp_mono (h (Bool.not_eq_true _ ▸ hopened))
    · intro a t ht
      exact ht
    · intro _ _ _
      rfl

omit [ReplicationStorage R] in
/-- A fresh round waits for its first page. -/
lemma paced_started (localSnapshot : Snapshot) : (s.started localSnapshot).Paced where
  load := Nat.zero_le _
  asking _ := ⟨rfl, rfl⟩
  idle h := by cases h

/-- A tick starts a round or does nothing. -/
lemma wp_tick (input : Option Message) :
    wp tick (fun r t => s.Conduct t input r ∧ t.failed = false) (fun _ t => t.failed = true)
      s := by
  apply wp_opened
  intro hopened
  unfold startRound
  rw [wp_bind]
  apply wp_onReplica_any
  · intro _ replica
    rw [wp_bind, wp_get, wp_ite]
    constructor
    · intro _
      exact ⟨.quiet input ⟨rfl, rfl⟩ hopened.symm, rfl⟩
    · intro hround
      rw [wp_bind]
      apply wp_onReplica_any
      · intro snapshot replica
        rw [wp_bind, wp_modify, wp_pure]
        have hidle : s.progress.synchronizing = false := by
          simp only [Bool.or_eq_true, not_or, Bool.not_eq_true] at hround
          exact hround.2
        refine ⟨.start input hopened hidle (.inl rfl) ?_, rfl⟩
        have hpaced : (s.started snapshot).Paced := paced_started snapshot
        exact SamePull.paced (s := s.started snapshot) ⟨rfl, rfl⟩ hpaced
      · intro _ _
        trivial
  · intro _ _
    trivial

omit [ReplicationStorage R] in
lemma SamePull.trans {t u : Session R} (h : SamePull s t) (h' : SamePull t u) : SamePull s u :=
  ⟨h'.pull.trans h.pull, h'.synchronizing.trans h.synchronizing⟩

omit [ReplicationStorage R] in
/-- Conduct does not depend on what the pulling side does not see. -/
lemma Conduct.congr {s' t t' : Session R} {input : Option Message} (h : s.Conduct t input replies)
    (before : SamePull s' s) (hbefore : s.failed = s'.failed) (after : SamePull t t')
    (hafter : t'.failed = t.failed) : s'.Conduct t' input replies := by
  cases h with
  | fail input hfailed => exact .fail input (hafter.trans hfailed)
  | quiet input same hfailed =>
    exact .quiet input ((before.trans same).trans after) (hafter.trans (hfailed.trans hbefore))
  | answer request reply hrequest hreply fits same hfailed =>
    exact .answer request reply hrequest hreply fits ((before.trans same).trans after)
      (hafter.trans (hfailed.trans hbefore))
  | start input opened idle waiting paced =>
    exact .start input (hbefore.symm.trans opened) (before.synchronizing.symm.trans idle)
      (after.waiting.mpr waiting) (after.paced paced)
  | work reply replies hreply opened worked =>
    exact .work reply replies hreply (hbefore.symm.trans opened) (after.worked worked)

/-- A message of an accepted peer. -/
lemma wp_dispatch (hopened : s.failed = false) (h : s.Paced) (message : Message) :
    wp (dispatch message) (fun r t => s.Conduct { t with failed := false } (some message) r)
      (fun _ _ => True) s := by
  cases message with
  | hello version encoding space => trivial
  | inventory after =>
    show wp (onSource (Source.inventory after) >>= fun reply => pure [reply]) _ _ _
    rw [wp_bind]
    apply wp_weaken (wp_inventory after)
    intro reply t ht
    exact .answer _ reply rfl ht.1 ht.2.1 ⟨ht.2.2.pull, ht.2.2.synchronizing⟩ hopened.symm
  | need record blob offset =>
    show wp (onSource (Source.need ⟨record, blob⟩ offset) >>= fun reply => pure [reply]) _ _ _
    rw [wp_bind]
    apply wp_weaken (wp_need ⟨record, blob⟩ offset)
    intro reply t ht
    exact .answer _ reply rfl ht.1 ht.2.1 ⟨ht.2.2.pull, ht.2.2.synchronizing⟩ hopened.symm
  | ack record blob =>
    show wp (acknowledge ⟨record, blob⟩ >>= fun _ => pure []) _ _ _
    unfold acknowledge
    rw [wp_bind, wp_bind]
    apply wp_onSource
    apply wp_of_exec
    · intro _ p _
      rw [wp_modify, wp_pure]
      refine .quiet _ ⟨rfl, ?_⟩ hopened.symm
      show Progress.synchronizing (if _ then _ else _) = _
      split <;> rfl
    · intro _ _ _
      trivial
  | checked position =>
    show wp (onSource (Source.onSource (Source.checked position)) >>= fun _ => pure []) _ _ _
    rw [wp_bind]
    apply wp_onSource
    apply wp_of_exec
    · intro _ p _
      exact .quiet _ ⟨rfl, rfl⟩ hopened.symm
    · intro _ _ _
      trivial
  | page offset total records more =>
    show wp (page offset total records more >>= fun _ => advance []) _ _ _
    rw [wp_bind]
    apply wp_weaken (wp_page h offset total records more)
    intro _ t ht
    have hbusy : t.Busy ([] : List Message).length := ht
    apply wp_weaken (wp_advance hbusy (by simp))
    intro r u hu
    exact .work _ r rfl hopened (SamePull.worked (s := u) ⟨rfl, rfl⟩ hu)
  | chunk record blob offset total bytes =>
    apply wp_weaken (wp_chunk h ⟨record, blob⟩ offset total bytes)
    intro r u hu
    exact .work _ r rfl hopened (SamePull.worked (s := u) ⟨rfl, rfl⟩ hu)
  | missing record blob =>
    apply wp_weaken (wp_missing h ⟨record, blob⟩)
    intro r u hu
    exact .work _ r rfl hopened (SamePull.worked (s := u) ⟨rfl, rfl⟩ hu)

/-- A received message is answered, noted or worked on, or starts the first round. -/
lemma wp_receive (h : s.failed = false → s.Paced) (message : Message) :
    wp (receive message) (fun r t => s.Conduct t (some message) r) (fun _ t => t.failed = true)
      s := by
  apply wp_opened
  intro hopened
  unfold process
  rw [wp_bind]
  apply wp_onReplica_any
  · intro _ replica
    have hpaced : Paced { s with replica := replica } :=
      SamePull.paced (s := s) ⟨rfl, rfl⟩ (h hopened)
    rw [wp_bind, wp_get, wp_ite]
    constructor
    · intro _
      rw [wp_bind]
      apply wp_weaken (wp_dispatch (s := { s with replica := replica }) hopened hpaced message)
      intro r t ht
      rw [wp_bind, wp_modify, wp_pure]
      exact ht.congr ⟨rfl, rfl⟩ rfl ⟨rfl, rfl⟩ rfl
    · intro _
      unfold negotiate
      rw [wp_bind, wp_get, wp_guard]
      refine ⟨fun _ => trivial, fun _ => ?_⟩
      rw [wp_guard]
      refine ⟨fun _ => trivial, fun _ => ?_⟩
      rw [wp_bind, wp_modify]
      refine wp_mono (wp_tick (some message)) ?_ fun _ _ _ => trivial
      intro r t ht
      exact ht.1.congr ⟨rfl, rfl⟩ rfl ⟨rfl, rfl⟩ ht.2.symm
  · intro _ _
    trivial

end Session

end EditChain.Sync
