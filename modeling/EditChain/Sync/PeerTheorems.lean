import EditChain.Sync.AdapterTheorems
import EditChain.Sync.Peer
import EditChain.Sync.ReplicaTheorems

/-!
# No lie to the peer

Whatever messages arrive and whatever its storage does, a session tells its peer only what its
storage has made true. The invariant of the pulling side is kept by every handler; it also says
which of the offered keys and references are settled.
-/

namespace EditChain.Sync

open Core Fallible

variable {Op : Type} [Schema Op] [Blake3]

/-! ## Recorded calls -/

/-- A call that neither freezes a snapshot for receiving nor makes a batch durable. -/
def Call.Plain (call : Call) : Prop := call.frozen = none ∧ call.ingested = []

lemma roundSnapshot_append (calls : List Call) (call : Call) :
    roundSnapshot (calls ++ [call]) = call.frozen.or (roundSnapshot calls) := by
  simp [roundSnapshot]

lemma ingestedRecords_append (calls : List Call) (call : Call) :
    ingestedRecords (calls ++ [call]) = ingestedRecords calls ++ call.ingested := by
  simp [ingestedRecords]

lemma Call.Plain.roundSnapshot {call : Call} (h : call.Plain) (calls : List Call) :
    roundSnapshot (calls ++ [call]) = roundSnapshot calls := by
  rw [roundSnapshot_append, h.1, Option.none_or]

lemma Call.Plain.ingestedRecords {call : Call} (h : call.Plain) (calls : List Call) :
    ingestedRecords (calls ++ [call]) = ingestedRecords calls := by
  rw [ingestedRecords_append, h.2, List.append_nil]

/-- Later calls of the same round. -/
structure Continues (calls later : List Call) : Prop where
  subset : calls ⊆ later
  round : roundSnapshot later = roundSnapshot calls
  ingested : ingestedRecords calls ⊆ ingestedRecords later

lemma Continues.refl (calls : List Call) : Continues calls calls :=
  ⟨List.Subset.refl _, rfl, List.Subset.refl _⟩

lemma Continues.trans {calls later last : List Call} (h : Continues calls later)
    (h' : Continues later last) : Continues calls last where
  subset := List.Subset.trans h.subset h'.subset
  round := h'.round.trans h.round
  ingested := List.Subset.trans h.ingested h'.ingested

lemma Call.Plain.continues {call : Call} (h : call.Plain) (calls : List Call) :
    Continues calls (calls ++ [call]) where
  subset := List.subset_append_left _ _
  round := h.roundSnapshot calls
  ingested := by
    rw [h.ingestedRecords]
    exact List.Subset.refl _

/-- Later calls of the same round that make no batch durable. -/
structure Extends (calls later : List Call) : Prop extends Continues calls later where
  same : ingestedRecords later = ingestedRecords calls

lemma Extends.refl (calls : List Call) : Extends calls calls := ⟨.refl calls, rfl⟩

lemma Extends.trans {calls later last : List Call} (h : Extends calls later)
    (h' : Extends later last) : Extends calls last :=
  ⟨h.toContinues.trans h'.toContinues, h'.same.trans h.same⟩

lemma Call.Plain.extends {call : Call} (h : call.Plain) (calls : List Call) :
    Extends calls (calls ++ [call]) :=
  ⟨h.continues calls, h.ingestedRecords calls⟩

lemma Continues.ingest (calls : List Call) (records : List (RecordKey × Bytes)) :
    Continues calls (calls ++ [.ingestRecords records (.ok ())]) where
  subset := List.subset_append_left _ _
  round := by
    rw [roundSnapshot_append]
    rfl
  ingested := by
    rw [ingestedRecords_append]
    exact List.subset_append_left _ _

lemma Continues.inRound {calls later : List Call} (h : Continues calls later) {key : RecordKey} :
    InRound later key ↔ InRound calls key := by
  unfold InRound
  rw [h.round]

/-! ## Facts that the trace supports -/

section Facts

variable [ContentSchema Op]

/-- Bytes that the storage reported to be durable under a key. -/
def Held (calls : List Call) (key : RecordKey) (bytes : Bytes) : Prop :=
  (∃ snapshot, .receivingSnapshot (.ok snapshot) ∈ calls ∧ snapshot.record key = some bytes) ∨
    (key, bytes) ∈ ingestedRecords calls

/-- Content that the storage reported to be durable. -/
def Stored (calls : List Call) (hash : Digest) : Prop :=
  (∃ snapshot key, .confirmBlob snapshot key hash (.ok true) ∈ calls) ∨
    ∃ key bytes, .ingestBlob key hash bytes (.ok ()) ∈ calls

/-- An object is durable, or was answered to be missing. -/
def Accounted (round : Round) (calls : List Call) (object : Object) : Prop :=
  object ∈ round.missing ∨ ∃ hash, object.blob = some hash ∧ Stored calls hash

/-- A key is durable, and all content its bytes refer to is accounted for. -/
def Settled (round : Round) (calls : List Call) (key : RecordKey) : Prop :=
  ∃ bytes, Held calls key bytes ∧
    ∀ hash, References bytes hash → Accounted round calls ⟨key, some hash⟩

/-- An object that may be asked for. -/
def Wanted (round : Round) (calls : List Call) (object : Object) : Prop :=
  Vouched round calls [] (.need object.record object.blob 0)

/-- Each of the replies is vouched for. -/
def Said (round : Round) (calls : List Call) (before replies : List Message) : Prop :=
  ∀ sent message rest, replies = sent ++ message :: rest →
    Vouched round calls (before ++ sent) message

variable {round : Round} {calls later : List Call}

omit [ContentSchema Op] in
lemma Held.mono {key : RecordKey} {bytes : Bytes} (hc : Continues calls later)
    (h : Held calls key bytes) : Held later key bytes := by
  rcases h with ⟨snapshot, hcall, hrecord⟩ | h
  · exact .inl ⟨snapshot, hc.subset hcall, hrecord⟩
  · exact .inr (hc.ingested h)

omit [ContentSchema Op] in
lemma Stored.mono {hash : Digest} (hc : calls ⊆ later) (h : Stored calls hash) :
    Stored later hash := by
  rcases h with ⟨snapshot, key, hcall⟩ | ⟨key, bytes, hcall⟩
  · exact .inl ⟨snapshot, key, hc hcall⟩
  · exact .inr ⟨key, bytes, hc hcall⟩

omit [ContentSchema Op] in
lemma Accounted.mono {object : Object} (hc : calls ⊆ later) (h : Accounted round calls object) :
    Accounted round later object := by
  rcases h with h | ⟨hash, hblob, h⟩
  · exact .inl h
  · exact .inr ⟨hash, hblob, h.mono hc⟩

lemma Settled.mono {key : RecordKey} (hc : Continues calls later) (h : Settled round calls key) :
    Settled round later key := by
  obtain ⟨bytes, hheld, hrefs⟩ := h
  exact ⟨bytes, hheld.mono hc, fun hash hr => (hrefs hash hr).mono hc.subset⟩

lemma Vouched.mono {sent : List Message} {message : Message} (hc : Continues calls later)
    (h : Vouched round calls sent message) : Vouched round later sent message := by
  cases message with
  | ack key blob =>
    cases blob with
    | none =>
      obtain ⟨bytes, hmem, hkey⟩ := h
      exact ⟨bytes, hc.ingested hmem, hkey⟩
    | some hash =>
      obtain ⟨bytes, hmem, hhash⟩ := h
      exact ⟨bytes, hc.subset hmem, hhash⟩
  | checked position =>
    refine ⟨h.1, fun key hkey => ?_⟩
    rw [hc.inRound]
    exact h.2 key hkey
  | need key blob offset =>
    cases blob with
    | none => exact ⟨h.1, fun hr => h.2 (hc.inRound.mp hr)⟩
    | some hash =>
      obtain ⟨hpage, snapshot, hashes, bytes, hcall, hfacts⟩ := h
      exact ⟨hpage, snapshot, hashes, bytes, hc.subset hcall, hfacts⟩
  | hello | inventory | page | chunk | missing => trivial

lemma Wanted.mono {object : Object} (hc : Continues calls later) (h : Wanted round calls object) :
    Wanted round later object :=
  Vouched.mono hc h

/-- A wanted object may be asked for at any offset. -/
lemma Wanted.vouched {object : Object} (h : Wanted round calls object) (sent : List Message)
    (offset : ℕ) : Vouched round calls sent (.need object.record object.blob offset) := by
  obtain ⟨key, blob⟩ := object
  cases blob <;> exact h

lemma Said.mono {before replies : List Message} (hc : Continues calls later)
    (h : Said round calls before replies) : Said round later before replies :=
  fun sent message rest heq => (h sent message rest heq).mono hc

lemma Said.nil (before : List Message) : Said round calls before [] := by
  intro sent message rest h
  simp at h

lemma Said.snoc {before replies : List Message} {message : Message}
    (h : Said round calls before replies) (hm : Vouched round calls (before ++ replies) message) :
    Said round calls before (replies ++ [message]) := by
  intro sent m rest heq
  rcases List.eq_nil_or_concat rest with rfl | ⟨rest, last, rfl⟩
  · obtain ⟨rfl, hlast⟩ := List.append_inj' heq rfl
    rw [← (List.cons.inj hlast).1]
    exact hm
  · rw [List.concat_eq_append, ← List.cons_append, ← List.append_assoc] at heq
    obtain ⟨rfl, -⟩ := List.append_inj' heq rfl
    exact h sent m rest rfl

end Facts

/-! ## The invariant of the pulling side -/

variable {R : Type}

/-- The session after a recorded storage call. -/
def Session.recorded (store : R) (call : Call) (s : Session (Traced R)) : Session (Traced R) :=
  { s with replica := ⟨store, s.replica.calls ++ [call]⟩ }

section Recorded

variable (store : R) (call : Call) (s : Session (Traced R))

@[simp] lemma Session.recorded_calls :
    (s.recorded store call).replica.calls = s.replica.calls ++ [call] := rfl

@[simp] lemma Session.recorded_pull : (s.recorded store call).pull = s.pull := rfl

@[simp] lemma Session.recorded_progress : (s.recorded store call).progress = s.progress := rfl

@[simp] lemma Session.recorded_localSnapshot :
    (s.recorded store call).localSnapshot = s.localSnapshot := rfl

end Recorded

/-- What a search for content leaves alone. -/
structure Searched (s t : Session (Traced R)) : Prop where
  snapshot : t.localSnapshot = s.localSnapshot
  staged : t.pull.staged = s.pull.staged
  records : t.pull.records = s.pull.records
  download : t.pull.download = s.pull.download
  tried : s.pull.tried ⊆ t.pull.tried
  calls : Continues s.replica.calls t.replica.calls

lemma Searched.refl (s : Session (Traced R)) : Searched s s :=
  ⟨rfl, rfl, rfl, rfl, Finset.Subset.refl _, .refl _⟩

lemma Searched.trans {s t u : Session (Traced R)} (h : Searched s t) (h' : Searched t u) :
    Searched s u where
  snapshot := h'.snapshot.trans h.snapshot
  staged := h'.staged.trans h.staged
  records := h'.records.trans h.records
  download := h'.download.trans h.download
  tried := Finset.Subset.trans h.tried h'.tried
  calls := h.calls.trans h'.calls

lemma Searched.recorded (s : Session (Traced R)) {call : Call} (hcall : call.Plain) (store : R) :
    Searched s (s.recorded store call) :=
  ⟨rfl, rfl, rfl, rfl, Finset.Subset.refl _, hcall.continues _⟩

/-- All references of a key's durable bytes have been looked at. -/
def Found [ContentSchema Op] (key : RecordKey) (s : Session (Traced R)) : Prop :=
  ∃ bytes, Held s.replica.calls key bytes ∧
    ∀ hash, References bytes hash → ⟨key, some hash⟩ ∈ s.pull.tried

lemma Found.mono [ContentSchema Op] {key : RecordKey} {s t : Session (Traced R)} (h : Found key s)
    (hst : Searched s t) : Found key t := by
  obtain ⟨bytes, hheld, hrefs⟩ := h
  exact ⟨bytes, hheld.mono hst.calls, fun hash hr => hst.tried (hrefs hash hr)⟩

/-- The counter of received records and the durable batches agree. -/
structure Tallied (s : Session (Traced R)) : Prop where
  counted : s.progress.records = min (ingestedRecords s.replica.calls).length u64Max
  derived : ∀ record ∈ ingestedRecords s.replica.calls,
    RecordKey.fromEncoded record.2 = .ok record.1

/-- What holds of a session between and during its rounds, given the messages it has sent. -/
structure Base (round : Round) (sent : List Message) (s : Session (Traced R)) : Prop
    extends Tallied s where
  staged : ∀ record ∈ s.pull.staged, RecordKey.fromEncoded record.2 = .ok record.1
  known : ∀ key, s.localSnapshot.contains key →
    InRound s.replica.calls key ∨ .ack key none ∈ sent
  kept : ∀ key, InRound s.replica.calls key → s.localSnapshot.contains key
  held : ∀ key bytes, s.localSnapshot.record key = some bytes → Held s.replica.calls key bytes
  unavailable : s.progress.unavailable = min round.missing.length u64Max

/-- The work on the current page, with the object that is being downloaded. -/
structure Work [ContentSchema Op] (round : Round) (sent : List Message) (current : Option Object)
    (s : Session (Traced R)) : Prop extends Base round sent s where
  turned : s.pull.waitingPage = false
  keys : s.pull.keys = round.page
  position : s.pull.position = round.offset + round.page.length
  settled : ∀ key ∈ round.earlier, Settled round s.replica.calls key
  covered : ∀ key ∈ round.page, InRound s.replica.calls key ∨ .ack key none ∈ sent
    ∨ key ∈ s.pull.staged.map Prod.fst ∨ key ∈ s.pull.records ∨ current = some ⟨key, none⟩
  records : ∀ key ∈ s.pull.records, key ∈ round.page ∧ ¬ InRound s.replica.calls key
  blobs : ∀ object ∈ s.pull.blobs, Wanted round s.replica.calls object
  wanted : ∀ object, current = some object → Wanted round s.replica.calls object
  tried : ∀ object ∈ s.pull.tried, object.blob.isSome ∧
    (Accounted round s.replica.calls object ∨ object ∈ s.pull.blobs ∨ current = some object)

section Invariant

variable {round : Round} {sent : List Message} {current : Option Object}
  {s t : Session (Traced R)}

lemma Tallied.frame (h : Tallied s)
    (hcalls : ingestedRecords t.replica.calls = ingestedRecords s.replica.calls)
    (hrecords : t.progress.records = s.progress.records) : Tallied t where
  counted := by
    rw [hcalls, hrecords]
    exact h.counted
  derived := by
    rw [hcalls]
    exact h.derived

lemma Base.frame (h : Base round sent s) (hcalls : Extends s.replica.calls t.replica.calls)
    (hstaged : t.pull.staged = s.pull.staged) (hlocal : t.localSnapshot = s.localSnapshot)
    (hrecords : t.progress.records = s.progress.records)
    (hunavailable : t.progress.unavailable = s.progress.unavailable) : Base round sent t where
  toTallied := h.toTallied.frame hcalls.same hrecords
  staged := by
    rw [hstaged]
    exact h.staged
  known key hkey := by
    rw [hcalls.inRound]
    rw [hlocal] at hkey
    exact h.known key hkey
  kept key hkey := by
    rw [hlocal]
    exact h.kept key (hcalls.inRound.mp hkey)
  held key bytes hrecord := by
    rw [hlocal] at hrecord
    exact (h.held key bytes hrecord).mono hcalls.toContinues
  unavailable := by
    rw [hunavailable]
    exact h.unavailable

lemma Base.sent_mono {later : List Message} (h : Base round sent s) (hsent : sent ⊆ later) :
    Base round later s where
  toTallied := h.toTallied
  staged := h.staged
  known key hkey := (h.known key hkey).imp_right fun hack => hsent hack
  kept := h.kept
  held := h.held
  unavailable := h.unavailable

variable [ContentSchema Op]

lemma Work.frame (h : Work round sent current s)
    (hcalls : Extends s.replica.calls t.replica.calls)
    (hpull : t.pull = { s.pull with download := t.pull.download })
    (hlocal : t.localSnapshot = s.localSnapshot)
    (hrecords : t.progress.records = s.progress.records)
    (hunavailable : t.progress.unavailable = s.progress.unavailable) :
    Work round sent current t where
  toBase := h.toBase.frame hcalls (by rw [hpull]) hlocal hrecords hunavailable
  turned := by
    rw [hpull]
    exact h.turned
  keys := by
    rw [hpull]
    exact h.keys
  position := by
    rw [hpull]
    exact h.position
  settled key hkey := (h.settled key hkey).mono hcalls.toContinues
  covered key hkey := by
    rw [hcalls.inRound, hpull]
    exact h.covered key hkey
  records key hkey := by
    rw [hpull] at hkey
    rw [hcalls.inRound]
    exact h.records key hkey
  blobs object hobject := by
    rw [hpull] at hobject
    exact (h.blobs object hobject).mono hcalls.toContinues
  wanted object hobject := (h.wanted object hobject).mono hcalls.toContinues
  tried object hobject := by
    rw [hpull] at hobject ⊢
    exact ⟨(h.tried object hobject).1,
      (h.tried object hobject).2.imp_left fun ha => ha.mono hcalls.subset⟩

/-- A plain call leaves the work alone. -/
lemma Work.recorded (h : Work round sent current s) {call : Call} (hcall : call.Plain) (store : R) :
    Work round sent current (s.recorded store call) :=
  h.frame (hcall.extends _) rfl rfl rfl rfl

lemma Work.sent_mono {later : List Message} (h : Work round sent current s)
    (hsent : sent ⊆ later) : Work round later current s where
  toBase := h.toBase.sent_mono hsent
  turned := h.turned
  keys := h.keys
  position := h.position
  settled := h.settled
  covered key hkey := (h.covered key hkey).imp_right fun hrest =>
    hrest.imp_left fun hack => hsent hack
  records := h.records
  blobs := h.blobs
  wanted := h.wanted
  tried := h.tried

end Invariant

/-! ## Storage calls of a session -/

/-- A call to the recording storage: the outcome is whatever the storage answers. -/
lemma wp_traced {α : Type} {t : Traced R} {ok : α → Traced R → Prop}
    {err : IoError → Traced R → Prop} (m : Fallible IoError R α) (event : Except IoError α → Call)
    (hok : ∀ a store, m.exec t.store = (.ok a, store) →
      ok a ⟨store, t.calls ++ [event (.ok a)]⟩)
    (herr : ∀ e store, err e ⟨store, t.calls ++ [event (.error e)]⟩) :
    wp (Traced.call m event) ok err t := by
  apply wp_of_exec
  · intro a u hu
    obtain ⟨ha, rfl⟩ := Prod.mk.inj hu
    rw [ha]
    exact hok a _ (Prod.ext ha rfl)
  · intro e u hu
    obtain ⟨he, rfl⟩ := Prod.mk.inj hu
    rw [he]
    exact herr e _

/-- A call of the pulling side. -/
lemma wp_call {α : Type} {s : Session (Traced R)} {ok : α → Session (Traced R) → Prop}
    {err : IoError → Session (Traced R) → Prop} (m : Fallible IoError R α)
    (event : Except IoError α → Call)
    (hok : ∀ a store, m.exec s.replica.store = (.ok a, store) →
      ok a (s.recorded store (event (.ok a))))
    (herr : ∀ e store, err e (s.recorded store (event (.error e)))) :
    wp (Session.onReplica (Traced.call m event)) ok err s := by
  unfold Session.onReplica
  rw [wp_zoom]
  exact wp_traced m event hok herr

/-- A call of the answering side. -/
lemma wp_onStorage_call {α : Type} {p : Source × Traced R} {ok : α → Source × Traced R → Prop}
    {err : IoError → Source × Traced R → Prop} (m : Fallible IoError R α)
    (event : Except IoError α → Call)
    (hok : ∀ a store, m.exec p.2.store = (.ok a, store) →
      ok a (p.1, ⟨store, p.2.calls ++ [event (.ok a)]⟩))
    (herr : ∀ e store, err e (p.1, ⟨store, p.2.calls ++ [event (.error e)]⟩)) :
    wp (Source.onStorage (Traced.call m event)) ok err p := by
  unfold Source.onStorage
  rw [wp_zoom]
  exact wp_traced m event hok herr

variable [ReplicationStorage R]

/-- Ingesting a batch through the recording storage. -/
lemma wp_ingest {s : Session (Traced R)} {ok : Unit → Session (Traced R) → Prop}
    {err : IoError → Session (Traced R) → Prop} (records : List (RecordKey × Bytes))
    (hok : ∀ store snapshot,
      (ReplicationStorage.ingestRecords records).exec (s.replica.store, s.localSnapshot)
        = (.ok (), store, snapshot) →
      ok () (Session.recorded store (.ingestRecords records (.ok ()))
        { s with localSnapshot := snapshot }))
    (herr : ∀ e store snapshot,
      err e (Session.recorded store (.ingestRecords records (.error e))
        { s with localSnapshot := snapshot })) :
    wp (Session.onLocal (ReplicationStorage.ingestRecords records)) ok err s := by
  unfold Session.onLocal
  rw [wp_zoom]
  apply wp_of_exec
  · intro a t ht
    obtain ⟨ha, rfl⟩ := Prod.mk.inj ht
    dsimp only
    rw [ha]
    exact hok _ _ (Prod.ext ha rfl)
  · intro e t ht
    obtain ⟨he, rfl⟩ := Prod.mk.inj ht
    dsimp only
    rw [he]
    have hfailed := herr e
      ((ReplicationStorage.ingestRecords records).exec (s.replica.store, s.localSnapshot)).2.1
      ((ReplicationStorage.ingestRecords records).exec (s.replica.store, s.localSnapshot)).2.2
    exact hfailed

/-! ## Handlers -/

variable [ContentSchema Op] {round : Round} {before replies : List Message}
  {current : Option Object} {s : Session (Traced R)}

omit [Schema Op] [Blake3] in
lemma foldl_saturatingAdd {α : Type} (l : List α) (n : ℕ) :
    l.foldl (fun n _ => saturatingAdd n 1) (min n u64Max) = min (n + l.length) u64Max := by
  induction l generalizing n with
  | nil => rfl
  | cons a l ih =>
    have hstep : saturatingAdd (min n u64Max) 1 = min (n + 1) u64Max := by
      unfold saturatingAdd
      omega
    rw [List.foldl_cons, hstep, ih, List.length_cons]
    congr 1
    omega

/-- The acknowledgements of a batch. -/
def acksOf (records : List (RecordKey × Bytes)) : List Message :=
  records.map fun record => Object.ack ⟨record.1, none⟩

omit [Schema Op] [Blake3] in
lemma mem_acksOf {records : List (RecordKey × Bytes)} {key : RecordKey}
    (h : key ∈ records.map Prod.fst) : Message.ack key none ∈ acksOf records := by
  obtain ⟨record, hrecord, rfl⟩ := List.mem_map.mp h
  exact List.mem_map.mpr ⟨record, hrecord, rfl⟩

/-- Acknowledging the records of a durable batch. -/
lemma Said.acks {calls : List Call} {records : List (RecordKey × Bytes)}
    (h : Said round calls before replies)
    (hrecords : ∀ record ∈ records, record ∈ ingestedRecords calls ∧
      RecordKey.fromEncoded record.2 = .ok record.1) :
    Said round calls before (replies ++ acksOf records) := by
  induction records using List.reverseRecOn with
  | nil => simpa [acksOf] using h
  | append_singleton records record ih =>
    have hinit := ih fun r hr => hrecords r (List.mem_append_left _ hr)
    have hlast := hrecords record (by simp)
    have hacks : acksOf (records ++ [record]) = acksOf records ++ [.ack record.1 none] := by
      simp [acksOf, Object.ack]
    rw [hacks, ← List.append_assoc]
    exact hinit.snoc ⟨record.2, hlast⟩

variable [LawfulStorage R]

/-- The state after the batch has become durable and its acknowledgements are queued. -/
lemma Work.flushed (h : Work round (before ++ replies) current s)
    (hsaid : Said round s.replica.calls before replies) {store : R} {snapshot : Snapshot}
    (hrun : (ReplicationStorage.ingestRecords s.pull.staged).exec (s.replica.store, s.localSnapshot)
      = (.ok (), store, snapshot)) :
    Work round (before ++ (replies ++ acksOf s.pull.staged)) current
        (Session.recorded store (.ingestRecords s.pull.staged (.ok ()))
          { s with localSnapshot := snapshot }).flushed ∧
      Said round (s.replica.calls ++ [.ingestRecords s.pull.staged (.ok ())]) before
        (replies ++ acksOf s.pull.staged) := by
  have hc := Continues.ingest s.replica.calls s.pull.staged
  have hingested : ingestedRecords (s.replica.calls ++ [.ingestRecords s.pull.staged (.ok ())])
      = ingestedRecords s.replica.calls ++ s.pull.staged := ingestedRecords_append ..
  have hsubset : before ++ replies ⊆ before ++ (replies ++ acksOf s.pull.staged) := by
    rw [← List.append_assoc]
    exact List.subset_append_left _ _
  constructor
  · constructor
    case toBase =>
      constructor
      case toTallied =>
        constructor
        · show s.pull.staged.foldl (fun n _ => saturatingAdd n 1) s.progress.records
            = min (ingestedRecords (s.replica.calls ++ [_])).length u64Max
          rw [hingested, h.counted, foldl_saturatingAdd, List.length_append]
        · show ∀ record ∈ ingestedRecords (s.replica.calls ++ [_]), _
          rw [hingested]
          intro record hrecord
          rcases List.mem_append.mp hrecord with hrecord | hrecord
          · exact h.derived record hrecord
          · exact h.staged record hrecord
      case staged => simp [Session.flushed]
      case known =>
        intro key hkey
        show InRound (s.replica.calls ++ [_]) key ∨ _
        rw [hc.inRound]
        obtain ⟨bytes, hbytes⟩ := Snapshot.contains_iff.mp hkey
        rcases LawfulStorage.ingestRecords_record _ _ _ _ _ hrun key bytes hbytes with hold | hnew
        · exact (h.known key (Snapshot.contains_iff.mpr ⟨bytes, hold⟩)).imp_right fun hack =>
            hsubset hack
        · right
          apply List.mem_append_right
          apply List.mem_append_right
          exact mem_acksOf (List.mem_map.mpr ⟨_, hnew, rfl⟩)
      case kept =>
        intro key hkey
        exact LawfulStorage.ingestRecords_contains _ _ _ _ _ hrun key
          (.inl (h.kept key (hc.inRound.mp hkey)))
      case held =>
        intro key bytes hbytes
        rcases LawfulStorage.ingestRecords_record _ _ _ _ _ hrun key bytes hbytes with hold | hnew
        · exact (h.held key bytes hold).mono hc
        · right
          show _ ∈ ingestedRecords (s.replica.calls ++ [_])
          rw [hingested]
          exact List.mem_append_right _ hnew
      case unavailable => exact h.unavailable
    case turned => exact h.turned
    case keys => exact h.keys
    case position => exact h.position
    case settled => exact fun key hkey => (h.settled key hkey).mono hc
    case covered =>
      intro key hkey
      show InRound (s.replica.calls ++ [_]) key ∨ _
      rw [hc.inRound]
      rcases h.covered key hkey with hround | hack | hstaged | hrest
      · exact .inl hround
      · exact .inr (.inl (hsubset hack))
      · right
        left
        apply List.mem_append_right
        apply List.mem_append_right
        exact mem_acksOf hstaged
      · exact .inr (.inr (.inr hrest))
    case records =>
      intro key hkey
      exact ⟨(h.records key hkey).1, fun hround => (h.records key hkey).2 (hc.inRound.mp hround)⟩
    case blobs => exact fun object hobject => (h.blobs object hobject).mono hc
    case wanted => exact fun object hobject => (h.wanted object hobject).mono hc
    case tried =>
      intro object hobject
      exact ⟨(h.tried object hobject).1,
        (h.tried object hobject).2.imp_left fun ha => ha.mono hc.subset⟩
  · apply (hsaid.mono hc).acks
    intro record hrecord
    rw [hingested]
    exact ⟨List.mem_append_right _ hrecord, h.staged record hrecord⟩

/-- Flushing acknowledges the staged records and nothing else changes on the page. -/
lemma flush_spec (h : Work round (before ++ replies) current s)
    (hsaid : Said round s.replica.calls before replies) :
    wp (Session.flush replies)
      (fun r t => Work round (before ++ r) current t ∧ Said round t.replica.calls before r ∧
        t.pull.staged = [] ∧ t.pull.records = s.pull.records ∧
        t.pull.download = s.pull.download)
      (fun _ t => Tallied t) s := by
  unfold Session.flush
  rw [wp_bind, wp_get, wp_ite]
  constructor
  · intro hempty
    exact ⟨h, hsaid, hempty, rfl, rfl⟩
  · intro _
    rw [wp_bind]
    apply wp_ingest
    · intro store snapshot hrun
      obtain ⟨hwork, hacks⟩ := h.flushed hsaid hrun
      exact ⟨hwork, hacks, rfl, rfl, rfl⟩
    · intro e store snapshot
      have hplain : (Call.ingestRecords s.pull.staged (.error e)).Plain := ⟨rfl, rfl⟩
      exact h.toTallied.frame (hplain.ingestedRecords _) rfl

lemma flushIf_spec (limit : Prop) [Decidable limit] (h : Work round (before ++ replies) current s)
    (hsaid : Said round s.replica.calls before replies) :
    wp (Session.flushIf limit replies)
      (fun r t => Work round (before ++ r) current t ∧ Said round t.replica.calls before r ∧
        t.pull.download = s.pull.download)
      (fun _ t => Tallied t) s := by
  unfold Session.flushIf
  rw [wp_ite]
  constructor
  · intro _
    apply wp_mono (flush_spec h hsaid)
    · intro r t ht
      exact ⟨ht.1, ht.2.1, ht.2.2.2.2⟩
    · intro e t ht
      exact ht
  · intro _
    exact ⟨h, hsaid, rfl⟩

omit [ReplicationStorage R] [LawfulStorage R] in
lemma Work.takeDownload {sent : List Message} (h : Work round sent current s) :
    Work round sent current s.takeDownload :=
  h.frame (.refl _) rfl rfl rfl rfl

/-- A published blob is acknowledged and accounted for. -/
lemma completeBlob_spec {download : Download} {hash : Digest}
    (h : Work round (before ++ replies) (some download.object) s)
    (hsaid : Said round s.replica.calls before replies) (hblob : download.object.blob = some hash)
    (htaken : s.pull.download = none) :
    wp (Session.completeBlob download hash replies)
      (fun r t => Work round (before ++ r) none t ∧ Said round t.replica.calls before r ∧
        t.pull.download = none)
      (fun _ t => Tallied t) s := by
  unfold Session.completeBlob
  rw [wp_bind]
  apply wp_call
  · intro _ store hrun
    have hplain : (Call.ingestBlob download.object.record hash download.bytes (.ok ())).Plain :=
      ⟨rfl, rfl⟩
    have hmem : Call.ingestBlob download.object.record hash download.bytes (.ok ())
        ∈ s.replica.calls ++ [.ingestBlob download.object.record hash download.bytes (.ok ())] := by
      simp
    have hwork := h.recorded hplain store
    rw [wp_bind, wp_modify, wp_pure]
    refine ⟨?_, ?_, htaken⟩
    · have hsubset : before ++ replies ⊆ before ++ (replies ++ [download.object.ack]) := by
        rw [← List.append_assoc]
        exact List.subset_append_left _ _
      have hsent := hwork.sent_mono hsubset
      constructor
      case toBase =>
        exact ⟨hsent.toTallied.frame rfl rfl, hsent.staged, hsent.known, hsent.kept, hsent.held,
          hsent.unavailable⟩
      case turned => exact hsent.turned
      case keys => exact hsent.keys
      case position => exact hsent.position
      case settled => exact hsent.settled
      case covered =>
        intro key hkey
        rcases hsent.covered key hkey with h' | h' | h' | h' | h'
        · exact .inl h'
        · exact .inr (.inl h')
        · exact .inr (.inr (.inl h'))
        · exact .inr (.inr (.inr (.inl h')))
        · rw [Option.some.inj h'] at hblob
          cases hblob
      case records => exact hsent.records
      case blobs => exact hsent.blobs
      case wanted =>
        intro object hobject
        cases hobject
      case tried =>
        intro object hobject
        obtain ⟨hcontent, haccount | hqueued | hcurrent⟩ := hsent.tried object hobject
        · exact ⟨hcontent, .inl haccount⟩
        · exact ⟨hcontent, .inr (.inl hqueued)⟩
        · rw [← Option.some.inj hcurrent]
          exact ⟨by rw [hblob]; rfl, .inl (.inr ⟨hash, hblob, .inr ⟨_, _, hmem⟩⟩)⟩
    · have hack : download.object.ack = .ack download.object.record (some hash) := by
        rw [← hblob]
        rfl
      rw [hack]
      exact (hsaid.mono (hplain.continues _)).snoc
        ⟨download.bytes, hmem, LawfulStorage.ingestBlob_hash _ _ _ _ _ hrun⟩
  · intro e store
    exact h.toTallied.frame (Call.Plain.ingestedRecords ⟨rfl, rfl⟩ _) rfl

omit [ReplicationStorage R] [LawfulStorage R] in
/-- A received record that derives its key is staged. -/
lemma Work.stage {sent : List Message} {object : Object} {bytes : Bytes}
    (h : Work round sent (some object) s) (hrecord : object.blob = none)
    (hderived : RecordKey.fromEncoded bytes = .ok object.record) :
    Work round sent none (s.stage object.record bytes) := by
  constructor
  case toBase =>
    refine ⟨h.toTallied.frame rfl rfl, ?_, h.known, h.kept, h.held, h.unavailable⟩
    intro record hmem
    rcases List.mem_append.mp hmem with hmem | hmem
    · exact h.staged record hmem
    · rw [List.mem_singleton] at hmem
      subst hmem
      exact hderived
  case turned => exact h.turned
  case keys => exact h.keys
  case position => exact h.position
  case settled => exact h.settled
  case covered =>
    intro key hkey
    show _ ∨ _ ∨ key ∈ (s.pull.staged ++ [(object.record, bytes)]).map Prod.fst ∨ _
    rw [List.map_append, List.mem_append]
    rcases h.covered key hkey with h' | h' | h' | h' | h'
    · exact .inl h'
    · exact .inr (.inl h')
    · exact .inr (.inr (.inl (.inl h')))
    · exact .inr (.inr (.inr (.inl h')))
    · right
      right
      left
      right
      simp [Option.some.inj h']
  case records => exact h.records
  case blobs => exact h.blobs
  case wanted =>
    intro object hobject
    cases hobject
  case tried =>
    intro tried htried
    obtain ⟨hcontent, haccount | hqueued | hcurrent⟩ := h.tried tried htried
    · exact ⟨hcontent, .inl haccount⟩
    · exact ⟨hcontent, .inr (.inl hqueued)⟩
    · rw [← Option.some.inj hcurrent, hrecord] at hcontent
      cases hcontent

/-- A received record ends up staged or durable. -/
lemma completeRecord_spec {download : Download}
    (h : Work round (before ++ replies) (some download.object) s)
    (hsaid : Said round s.replica.calls before replies) (hrecord : download.object.blob = none)
    (htaken : s.pull.download = none) :
    wp (Session.completeRecord download replies)
      (fun r t => Work round (before ++ r) none t ∧ Said round t.replica.calls before r ∧
        t.pull.download = none)
      (fun _ t => Tallied t) s := by
  unfold Session.completeRecord
  rw [wp_bind, wp_lift]
  refine ⟨?_, fun _ _ => h.toTallied⟩
  intro key hkey
  rw [wp_guard]
  refine ⟨fun _ => h.toTallied, ?_⟩
  intro hmatch
  rw [not_not] at hmatch
  rw [hmatch] at hkey
  rw [wp_bind, wp_get, wp_bind]
  apply wp_mono (flushIf_spec _ h hsaid)
  · intro r t ht
    have hstaged := ht.1.stage hrecord hkey
    rw [wp_bind, wp_modify, wp_bind, wp_get]
    apply wp_mono (flushIf_spec _ hstaged ht.2.1)
    · intro r u hu
      exact ⟨hu.1, hu.2.1, hu.2.2.trans (ht.2.2.trans htaken)⟩
    · intro e u hu
      exact hu
  · intro e t ht
    exact ht

/-- A completely received object is published, staged or durable. -/
lemma complete_spec {download : Download}
    (h : Work round (before ++ replies) (some download.object) s)
    (hsaid : Said round s.replica.calls before replies)
    (hdownload : s.pull.download = some download) :
    wp (Session.complete replies)
      (fun r t => Work round (before ++ r) none t ∧ Said round t.replica.calls before r ∧
        t.pull.download = none)
      (fun _ t => Tallied t) s := by
  unfold Session.complete
  rw [wp_bind, wp_get, hdownload]
  dsimp only
  rw [wp_bind, wp_modify]
  cases hblob : download.object.blob with
  | some hash => exact completeBlob_spec h.takeDownload hsaid hblob rfl
  | none => exact completeRecord_spec h.takeDownload hsaid hblob rfl

/-! ## The search for content -/

variable {sent : List Message}

omit [ReplicationStorage R] [LawfulStorage R] in
/-- An object is tried: it is accounted for, or queued. -/
lemma Work.try {object : Object} {queue : List Object} (h : Work round sent none s)
    (hcontent : object.blob.isSome) (hqueue : s.pull.blobs ⊆ queue)
    (hwanted : ∀ o ∈ queue, Wanted round s.replica.calls o)
    (hdone : Accounted round s.replica.calls object ∨ object ∈ queue) :
    Work round sent none { s with
      pull := { s.pull with tried := insert object s.pull.tried, blobs := queue } } := by
  refine ⟨h.toBase.frame (.refl _) rfl rfl rfl rfl, h.turned, h.keys, h.position, h.settled, h.covered,
    h.records, hwanted, fun o ho => (by cases ho), ?_⟩
  intro o ho
  rcases Finset.mem_insert.mp ho with rfl | ho
  · exact ⟨hcontent, hdone.imp_right .inl⟩
  · obtain ⟨hblob, haccount | hqueued | hcurrent⟩ := h.tried o ho
    · exact ⟨hblob, .inl haccount⟩
    · exact ⟨hblob, .inr (.inl (hqueue hqueued))⟩
    · cases hcurrent

omit [LawfulStorage R] in
lemma findBlob_spec {key : RecordKey} {hash : Digest} (h : Work round sent none s)
    (hwanted : Wanted round s.replica.calls ⟨key, some hash⟩) :
    wp (Session.findBlob key hash)
      (fun _ t => Work round sent none t ∧ Searched s t ∧ ⟨key, some hash⟩ ∈ t.pull.tried)
      (fun _ t => Tallied t) s := by
  unfold Session.findBlob
  rw [wp_bind, wp_get, wp_ite]
  constructor
  · intro hnew
    rw [wp_bind, wp_modify, wp_bind]
    apply wp_call
    · intro found store hrun
      have hplain : (Call.confirmBlob s.localSnapshot key hash (.ok found)).Plain := ⟨rfl, rfl⟩
      have hwork := h.recorded hplain store
      have hsearched := Searched.recorded s hplain store
      rw [wp_ite]
      constructor
      · -- unavailable content is queued
        intro _
        refine ⟨?_, ⟨rfl, rfl, rfl, rfl, Finset.subset_insert _ _, hsearched.calls⟩,
          Finset.mem_insert_self _ _⟩
        apply hwork.try rfl
        · exact List.subset_append_left _ _
        · intro o ho
          rcases List.mem_append.mp ho with ho | ho
          · exact hwork.blobs o ho
          · rw [List.mem_singleton] at ho
            subst ho
            exact hwanted.mono hsearched.calls
        · exact .inr (by simp)
      · -- confirmed content is durable
        intro hfound
        have htrue : found = true := by simpa using hfound
        subst htrue
        refine ⟨?_, ⟨rfl, rfl, rfl, rfl, Finset.subset_insert _ _, hsearched.calls⟩,
          Finset.mem_insert_self _ _⟩
        apply hwork.try rfl (List.Subset.refl _) hwork.blobs
        left
        exact .inr ⟨hash, rfl, .inl ⟨s.localSnapshot, key, by simp⟩⟩
    · intro e store
      exact h.toTallied.frame (Call.Plain.ingestedRecords ⟨rfl, rfl⟩ _) rfl
  · intro htried
    rw [not_not] at htried
    exact ⟨h, .refl s, htried⟩

/-- All references of one key of the page are looked at. -/
lemma findKey_spec {key : RecordKey} (h : Work round sent none s) (hkey : key ∈ round.page) :
    wp (Session.findKey key)
      (fun _ t => Work round sent none t ∧ Searched s t ∧ Found key t)
      (fun _ t => Tallied t) s := by
  unfold Session.findKey
  rw [wp_bind, wp_get, wp_bind]
  apply wp_call
  · intro hashes store hrun
    have hplain : (Call.blobHashes s.localSnapshot key (.ok hashes)).Plain := ⟨rfl, rfl⟩
    have hwork := h.recorded hplain store
    have hsearched := Searched.recorded s hplain store
    obtain ⟨bytes, hbytes, hrefs⟩ := LawfulStorage.blobHashes_eq _ _ _ _ _ hrun
    rw [wp_guard]
    refine ⟨fun _ => hwork.toTallied, fun _ => ?_⟩
    have hwanted : ∀ hash ∈ hashes, Wanted round (s.recorded store
        (.blobHashes s.localSnapshot key (.ok hashes))).replica.calls ⟨key, some hash⟩ := by
      intro hash hhash
      exact ⟨hkey, s.localSnapshot, hashes, bytes, by simp, hhash, hbytes, (hrefs hash).mp hhash⟩
    have hloop : wp (forM hashes.toList (Session.findBlob key))
        (fun _ t => Work round sent none t ∧
          Searched (s.recorded store (.blobHashes s.localSnapshot key (.ok hashes))) t ∧
          ∀ hash ∈ hashes.toList, ⟨key, some hash⟩ ∈ t.pull.tried)
        (fun _ t => Tallied t)
        (s.recorded store (.blobHashes s.localSnapshot key (.ok hashes))) := by
      refine wp_forM hashes.toList (fun done t => Work round sent none t ∧
        Searched (s.recorded store (.blobHashes s.localSnapshot key (.ok hashes))) t ∧
        ∀ hash ∈ done, ⟨key, some hash⟩ ∈ t.pull.tried) ?_ ⟨hwork, .refl _, by simp⟩
      rintro done hash t hdone ⟨ht, hst, htried⟩
      have hmem : hash ∈ hashes :=
        Std.ExtTreeSet.mem_toList.mp (hdone.subset (by simp))
      apply wp_mono (findBlob_spec ht ((hwanted hash hmem).mono hst.calls))
      · rintro _ u ⟨hu, htu, hnew⟩
        refine ⟨hu, hst.trans htu, fun hash' hmem' => ?_⟩
        rcases List.mem_append.mp hmem' with hmem' | hmem'
        · exact htu.tried (htried hash' hmem')
        · rw [List.mem_singleton] at hmem'
          subst hmem'
          exact hnew
      · intro e u hu
        exact hu
    apply wp_mono hloop
    · rintro _ t ⟨ht, hst, htried⟩
      refine ⟨ht, hsearched.trans hst, bytes, ?_, ?_⟩
      · exact (h.held key bytes hbytes).mono (hsearched.trans hst).calls
      · intro hash hr
        exact htried hash (Std.ExtTreeSet.mem_toList.mpr ((hrefs hash).mpr hr))
    · intro e t ht
      exact ht
  · intro e store
    exact h.toTallied.frame (Call.Plain.ingestedRecords ⟨rfl, rfl⟩ _) rfl

/-- All references of the page are looked at. -/
lemma findBlobs_spec (h : Work round sent none s) :
    wp Session.findBlobs
      (fun _ t => Work round sent none t ∧ Searched s t ∧ ∀ key ∈ round.page, Found key t)
      (fun _ t => Tallied t) s := by
  unfold Session.findBlobs
  rw [wp_bind, wp_get, h.keys]
  apply wp_forM round.page
    (fun done t => Work round sent none t ∧ Searched s t ∧ ∀ key ∈ done, Found key t)
  · rintro done key t hdone ⟨ht, hst, hfound⟩
    apply wp_mono (findKey_spec ht (hdone.subset (by simp)))
    · rintro _ u ⟨hu, htu, hkey⟩
      refine ⟨hu, hst.trans htu, fun key' hmem => ?_⟩
      rcases List.mem_append.mp hmem with hmem | hmem
      · exact (hfound key' hmem).mono htu
      · rw [List.mem_singleton] at hmem
        subst hmem
        exact hkey
    · intro e u hu
      exact hu
  · exact ⟨h, .refl s, by simp⟩

/-! ## Advancing -/

/-- Between turns nothing is open: every offered key is settled. -/
structure Quiet (round : Round) (sent : List Message) (s : Session (Traced R)) : Prop
    extends Base round sent s where
  download : s.pull.download = none
  noRecords : s.pull.records = []
  noBlobs : s.pull.blobs = []
  noStaged : s.pull.staged = []
  settled : ∀ key ∈ round.earlier ++ round.page, Settled round s.replica.calls key

/-- Between turns a session has nothing open, or downloads an object of the page. -/
def Resting (round : Round) (sent : List Message) (s : Session (Traced R)) : Prop :=
  Quiet round sent s ∨
    ∃ download, s.pull.download = some download ∧ Work round sent (some download.object) s

omit [ReplicationStorage R] [LawfulStorage R] in
/-- Requesting a wanted object. -/
lemma download_spec {object : Object} (h : Work round (before ++ replies) (some object) s)
    (hsaid : Said round s.replica.calls before replies) :
    wp (Session.download object replies)
      (fun r t => Resting round (before ++ r) t ∧ Said round t.replica.calls before r)
      (fun _ t => Tallied t) s := by
  unfold Session.download Object.need
  rw [wp_bind, wp_lift]
  refine ⟨?_, fun _ _ => h.toTallied⟩
  intro request hrequest
  rw [if_neg (by norm_num)] at hrequest
  rw [wp_bind, wp_modify, wp_pure, ← Except.ok.inj hrequest]
  constructor
  · right
    refine ⟨.new object, rfl, ?_⟩
    have hsubset : before ++ replies
        ⊆ before ++ (replies ++ [.need object.record object.blob 0]) := by
      rw [← List.append_assoc]
      exact List.subset_append_left _ _
    have hsent := h.sent_mono hsubset
    exact hsent.frame (.refl _) rfl rfl rfl rfl
  · exact hsaid.snoc ((h.wanted object rfl).vouched _ _)

omit [ReplicationStorage R] [LawfulStorage R] in
/-- A page whose records and content are all done is settled. -/
lemma Work.settledPage (h : Work round sent none s) (hblobs : s.pull.blobs = [])
    (hfound : ∀ key ∈ round.page, Found key s) :
    ∀ key ∈ round.earlier ++ round.page, Settled round s.replica.calls key := by
  intro key hkey
  rcases List.mem_append.mp hkey with hkey | hkey
  · exact h.settled key hkey
  · obtain ⟨bytes, hheld, hrefs⟩ := hfound key hkey
    refine ⟨bytes, hheld, fun hash hr => ?_⟩
    obtain ⟨-, haccount | hqueued | hcurrent⟩ := h.tried _ (hrefs hash hr)
    · exact haccount
    · rw [hblobs] at hqueued
      cases hqueued
    · cases hcurrent

omit [ReplicationStorage R] [LawfulStorage R] in
/-- Confirming a page on which nothing is open. -/
lemma finishPage_spec (h : Work round (before ++ replies) none s)
    (hsaid : Said round s.replica.calls before replies) (hdownload : s.pull.download = none)
    (hrecords : s.pull.records = []) (hstaged : s.pull.staged = []) (hblobs : s.pull.blobs = [])
    (hfound : ∀ key ∈ round.page, Found key s) :
    wp (Session.finishPage replies)
      (fun r t => Resting round (before ++ r) t ∧ Said round t.replica.calls before r)
      (fun _ t => Tallied t) s := by
  have hsettled := h.settledPage hblobs hfound
  have hchecked : Said round s.replica.calls before (replies ++ [.checked s.pull.position]) := by
    apply hsaid.snoc
    refine ⟨h.position, fun key hkey => ?_⟩
    rcases h.covered key hkey with h' | h' | h' | h' | h'
    · exact .inl h'
    · exact .inr h'
    · rw [hstaged] at h'
      cases h'
    · rw [hrecords] at h'
      cases h'
    · cases h'
  unfold Session.finishPage
  rw [wp_bind, wp_modify, wp_bind, wp_get, wp_ite]
  constructor
  · intro _
    rw [wp_bind, wp_modify, wp_pure]
    constructor
    · left
      have hbase := h.toBase.sent_mono (List.subset_append_left (before ++ replies)
        [.checked s.pull.position, .inventory s.pull.after])
      rw [List.append_assoc] at hbase
      simp only [List.append_assoc, List.cons_append, List.nil_append]
      exact ⟨hbase.frame (.refl _) rfl rfl rfl rfl, hdownload, hrecords, hblobs, hstaged, hsettled⟩
    · exact hchecked.snoc trivial
  · intro _
    rw [wp_bind, wp_modify, wp_pure]
    constructor
    · left
      have hbase := h.toBase.sent_mono (List.subset_append_left (before ++ replies)
        [.checked s.pull.position])
      rw [List.append_assoc] at hbase
      exact ⟨hbase.frame (.refl _) rfl rfl rfl rfl, hdownload, hrecords, hblobs, hstaged, hsettled⟩
    · exact hchecked

omit [ReplicationStorage R] [LawfulStorage R] in
lemma Work.popRecord {key : RecordKey} {rest : List RecordKey} (h : Work round sent none s)
    (hrecords : s.pull.records = key :: rest) :
    Work round sent (some ⟨key, none⟩) { s with pull := { s.pull with records := rest } } := by
  have hkey := h.records key (by rw [hrecords]; exact List.mem_cons_self)
  refine ⟨h.toBase.frame (.refl _) rfl rfl rfl rfl, h.turned, h.keys, h.position, h.settled, ?_, ?_,
    h.blobs, ?_, ?_⟩
  · intro k hk
    have hcovered := h.covered k hk
    rw [hrecords, List.mem_cons] at hcovered
    rcases hcovered with h' | h' | h' | (rfl | h') | h'
    · exact .inl h'
    · exact .inr (.inl h')
    · exact .inr (.inr (.inl h'))
    · exact .inr (.inr (.inr (.inr rfl)))
    · exact .inr (.inr (.inr (.inl h')))
    · cases h'
  · intro k hk
    exact h.records k (by rw [hrecords]; exact List.mem_cons_of_mem _ hk)
  · intro object hobject
    rw [← Option.some.inj hobject]
    exact hkey
  · intro object hobject
    obtain ⟨hcontent, haccount | hqueued | hcurrent⟩ := h.tried object hobject
    · exact ⟨hcontent, .inl haccount⟩
    · exact ⟨hcontent, .inr (.inl hqueued)⟩
    · cases hcurrent

omit [ReplicationStorage R] [LawfulStorage R] in
lemma Work.popBlob {object : Object} {rest : List Object} (h : Work round sent none s)
    (hblobs : s.pull.blobs = object :: rest) :
    Work round sent (some object) { s with pull := { s.pull with blobs := rest } } := by
  have hobject := h.blobs object (by rw [hblobs]; exact List.mem_cons_self)
  refine ⟨h.toBase.frame (.refl _) rfl rfl rfl rfl, h.turned, h.keys, h.position, h.settled, ?_,
    h.records, ?_, ?_, ?_⟩
  · intro k hk
    rcases h.covered k hk with h' | h' | h' | h' | h'
    · exact .inl h'
    · exact .inr (.inl h')
    · exact .inr (.inr (.inl h'))
    · exact .inr (.inr (.inr (.inl h')))
    · cases h'
  · intro o ho
    exact h.blobs o (by rw [hblobs]; exact List.mem_cons_of_mem _ ho)
  · intro o ho
    rw [← Option.some.inj ho]
    exact hobject
  · intro o ho
    have htried := h.tried o ho
    rw [hblobs, List.mem_cons] at htried
    obtain ⟨hcontent, haccount | (rfl | hqueued) | hcurrent⟩ := htried
    · exact ⟨hcontent, .inl haccount⟩
    · exact ⟨hcontent, .inr (.inr rfl)⟩
    · exact ⟨hcontent, .inr (.inl hqueued)⟩
    · cases hcurrent

/-- After the search either content is queued or every reference of the page was looked at. -/
lemma searchBlobs_spec (h : Work round sent none s) :
    wp Session.searchBlobs
      (fun _ t => Work round sent none t ∧ Searched s t ∧
        (t.pull.blobs = [] → ∀ key ∈ round.page, Found key t))
      (fun _ t => Tallied t) s := by
  unfold Session.searchBlobs
  rw [wp_bind, wp_get, wp_ite]
  constructor
  · intro _
    apply wp_mono (findBlobs_spec h)
    · intro _ t ht
      exact ⟨ht.1, ht.2.1, fun _ => ht.2.2⟩
    · intro e t ht
      exact ht
  · intro hblobs
    exact ⟨h, .refl s, fun hempty => absurd hempty hblobs⟩

/-- Advancing requests a wanted object or confirms the page. -/
lemma advance_spec (h : Work round (before ++ replies) none s)
    (hsaid : Said round s.replica.calls before replies) (hdownload : s.pull.download = none) :
    wp (Session.advance replies)
      (fun r t => Resting round (before ++ r) t ∧ Said round t.replica.calls before r)
      (fun _ t => Tallied t) s := by
  unfold Session.advance
  rw [wp_bind, wp_get]
  cases hrecords : s.pull.records with
  | cons key rest =>
    dsimp only
    rw [wp_bind, wp_modify]
    exact download_spec (h.popRecord hrecords) hsaid
  | nil =>
    dsimp only
    rw [wp_bind]
    apply wp_mono (flush_spec h hsaid)
    · rintro r t ⟨ht, hsaid, hstaged, hrecords', hdownload'⟩
      rw [wp_bind]
      apply wp_mono (searchBlobs_spec ht)
      · rintro _ u ⟨hu, htu, hfound⟩
        have hsaid' := hsaid.mono htu.calls
        rw [wp_bind, wp_get]
        cases hblobs : u.pull.blobs with
        | cons object rest =>
          dsimp only
          rw [wp_bind, wp_modify]
          exact download_spec (hu.popBlob hblobs) hsaid'
        | nil =>
          exact finishPage_spec hu hsaid' (htu.download.trans (hdownload'.trans hdownload))
            (htu.records.trans (hrecords'.trans hrecords)) (htu.staged.trans hstaged) hblobs
            (hfound hblobs)
      · intro e u hu
        exact hu
    · intro e t ht
      exact ht

/-! ## Messages -/

omit [ReplicationStorage R] [LawfulStorage R] in
lemma Resting.toBase (h : Resting round sent s) : Base round sent s := by
  rcases h with h | ⟨download, -, h⟩
  · exact h.toBase
  · exact h.toBase

omit [ReplicationStorage R] [LawfulStorage R] in
lemma Resting.work (h : Resting round sent s) {download : Download}
    (hdownload : s.pull.download = some download) :
    Work round sent (some download.object) s := by
  rcases h with h | ⟨download', hdownload', h⟩
  · rw [h.download] at hdownload
    cases hdownload
  · rw [hdownload'] at hdownload
    rw [← Option.some.inj hdownload]
    exact h

omit [ReplicationStorage R] [LawfulStorage R] in
lemma Resting.quiet (h : Resting round sent s) (hwaiting : s.pull.waitingPage = true) :
    Quiet round sent s := by
  rcases h with h | ⟨download, -, h⟩
  · exact h
  · rw [h.turned] at hwaiting
    cases hwaiting

omit [ReplicationStorage R] [LawfulStorage R] in
/-- Whatever leaves the pulling side alone keeps it at rest. -/
lemma Resting.frame {t : Session (Traced R)} (h : Resting round sent s)
    (hcalls : Extends s.replica.calls t.replica.calls) (hpull : t.pull = s.pull)
    (hlocal : t.localSnapshot = s.localSnapshot)
    (hrecords : t.progress.records = s.progress.records)
    (hunavailable : t.progress.unavailable = s.progress.unavailable) : Resting round sent t := by
  rcases h with h | ⟨download, hdownload, h⟩
  · left
    refine ⟨h.toBase.frame hcalls (by rw [hpull]) hlocal hrecords hunavailable, ?_, ?_, ?_, ?_, ?_⟩
    · rw [hpull]
      exact h.download
    · rw [hpull]
      exact h.noRecords
    · rw [hpull]
      exact h.noBlobs
    · rw [hpull]
      exact h.noStaged
    · exact fun key hkey => (h.settled key hkey).mono hcalls.toContinues
  · right
    refine ⟨download, by rw [hpull]; exact hdownload, ?_⟩
    exact h.frame hcalls (by rw [hpull]) hlocal hrecords hunavailable

/-- The round with another page. -/
def Round.turn (round : Round) (offset : ℕ) (records : List RecordKey) : Round :=
  { round with earlier := round.earlier ++ round.page, offset := offset, page := records }

/-- The round with another missing content. -/
def Round.without (round : Round) (object : Object) : Round :=
  { round with missing := round.missing ++ [object] }

lemma Settled.of_missing_subset {round' : Round} {calls : List Call} {key : RecordKey}
    (h : Settled round calls key) (hmissing : round.missing ⊆ round'.missing) :
    Settled round' calls key := by
  obtain ⟨bytes, hheld, hrefs⟩ := h
  exact ⟨bytes, hheld, fun hash hr => (hrefs hash hr).imp_left fun hm => hmissing hm⟩

omit [ReplicationStorage R] [LawfulStorage R] in
/-- A page is taken in: its unknown keys are to be downloaded. -/
lemma Quiet.turned (h : Quiet round sent s) (offset total : ℕ) (records : List RecordKey)
    (more : Bool) :
    Work (round.turn offset records) sent none
      (s.turned (offset + records.length) total records more) := by
  constructor
  case toBase =>
    exact ⟨h.toTallied.frame rfl rfl, h.staged, h.known, h.kept, h.held, h.unavailable⟩
  case turned => rfl
  case keys => rfl
  case position => rfl
  case settled =>
    intro key hkey
    exact (h.settled key hkey).of_missing_subset (List.Subset.refl _)
  case covered =>
    intro key hkey
    cases hlocal : s.localSnapshot.contains key with
    | true => exact (h.known key hlocal).imp_right .inl
    | false =>
      refine .inr (.inr (.inr (.inl (List.mem_filter.mpr ⟨hkey, ?_⟩))))
      rw [hlocal]
      rfl
  case records =>
    intro key hkey
    obtain ⟨hmem, hlocal⟩ := List.mem_filter.mp hkey
    refine ⟨hmem, fun hround => ?_⟩
    rw [h.kept key hround] at hlocal
    cases hlocal
  case blobs =>
    intro object hobject
    have hempty : s.pull.blobs = [] := h.noBlobs
    rw [show (s.turned (offset + records.length) total records more).pull.blobs = s.pull.blobs
      from rfl, hempty] at hobject
    cases hobject
  case wanted =>
    intro object hobject
    cases hobject
  case tried =>
    intro object hobject
    exact absurd hobject (Finset.notMem_empty _)

omit [ReplicationStorage R] [LawfulStorage R] in
lemma page_spec {offset total : ℕ} {records : List RecordKey} {more : Bool}
    (h : Resting round before s) :
    wp (Session.page offset total records more)
      (fun _ t => Work (round.turn offset records) before none t ∧ t.pull.download = none)
      (fun _ t => Tallied t) s := by
  have hcounted : Tallied s := h.toBase.toTallied
  unfold Session.page
  rw [wp_bind, wp_get, wp_guard]
  refine ⟨fun _ => hcounted, fun hsolicited => ?_⟩
  rw [wp_guard]
  refine ⟨fun _ => hcounted, fun _ => ?_⟩
  rw [wp_guard]
  refine ⟨fun _ => hcounted, fun _ => ?_⟩
  rw [wp_guard]
  refine ⟨fun _ => hcounted, fun _ => ?_⟩
  rw [wp_modify]
  have hwaiting : s.pull.waitingPage = true := by
    by_contra hne
    exact hsolicited (.inl hne)
  have hquiet := h.quiet hwaiting
  exact ⟨hquiet.turned offset total records more, hquiet.download⟩

omit [Schema Op] [Blake3] [ContentSchema Op] in
/-- An accepted chunk belongs to the object that is being downloaded. -/
lemma append_object {object : Object} {offset total : ℕ} {bytes : Bytes} {done : Bool}
    {d d' : Download} (h : (Download.append object offset total bytes).exec d = (.ok done, d')) :
    d'.object = d.object := by
  have hspec : wp (Download.append object offset total bytes)
      (fun _ t => t.object = d.object) (fun _ _ => True) d := by
    unfold Download.append
    rw [wp_bind, wp_get, wp_guard]
    refine ⟨fun _ => trivial, fun _ => ?_⟩
    rw [wp_guard]
    exact ⟨fun _ => trivial, fun _ => rfl⟩
  have hobject := wp_eq_ok hspec h
  exact hobject

lemma chunk_spec {object : Object} {offset total : ℕ} {bytes : Bytes}
    (h : Resting round before s) :
    wp (Session.chunk object offset total bytes)
      (fun r t => Resting round (before ++ r) t ∧ Said round t.replica.calls before r)
      (fun _ t => Tallied t) s := by
  have hcounted : Tallied s := h.toBase.toTallied
  unfold Session.chunk
  rw [wp_bind, wp_get]
  cases hdownload : s.pull.download with
  | none => exact hcounted
  | some d =>
    have hwork := h.work hdownload
    dsimp only
    cases happend : (Download.append object offset total bytes).exec d with
    | mk result d' =>
      dsimp only
      rw [wp_bind, wp_lift]
      refine ⟨?_, fun _ _ => hcounted⟩
      rintro done rfl
      have hobject : d'.object = d.object := append_object happend
      have hwork' : Work round before (some d'.object)
          { s with pull := { s.pull with download := some d' } } := by
        rw [hobject]
        exact hwork.frame (.refl _) rfl rfl rfl rfl
      rw [wp_bind, wp_modify, wp_ite]
      constructor
      · intro _
        rw [wp_bind]
        have hstart : Work round (before ++ []) (some d'.object)
            { s with pull := { s.pull with download := some d' } } := by
          rw [List.append_nil]
          exact hwork'
        apply wp_mono (complete_spec hstart (.nil before) rfl)
        · rintro r t ⟨ht, hsaid, hnone⟩
          exact advance_spec ht hsaid hnone
        · intro e t ht
          exact ht
      · intro _
        rw [wp_bind, wp_lift]
        refine ⟨?_, fun _ _ => hcounted.frame rfl rfl⟩
        intro request hrequest
        unfold Object.need at hrequest
        split at hrequest
        · cases hrequest
        · rw [wp_pure, ← Except.ok.inj hrequest]
          constructor
          · right
            exact ⟨d', rfl, hwork'.sent_mono (List.subset_append_left _ _)⟩
          · apply (Said.nil before).snoc
            exact (hwork'.wanted d'.object rfl).vouched _ _

omit [ReplicationStorage R] [LawfulStorage R] in
/-- Missing content is counted and accounted for. -/
lemma Work.withoutContent {object : Object} (h : Work round sent (some object) s)
    (hcontent : object.blob.isSome) :
    Work (round.without object) sent none s.withoutContent := by
  have hmissing : round.missing ⊆ (round.without object).missing := List.subset_append_left _ _
  have hpage : ∀ o, Wanted round s.replica.calls o →
      Wanted (round.without object) s.replica.calls o := by
    rintro ⟨key, blob⟩ ho
    cases blob <;> exact ho
  constructor
  case toBase =>
    refine ⟨h.toTallied.frame rfl rfl, h.staged, h.known, h.kept, h.held, ?_⟩
    show saturatingAdd s.progress.unavailable 1 = min (round.missing ++ [object]).length u64Max
    rw [h.unavailable, List.length_append, List.length_singleton]
    unfold saturatingAdd
    omega
  case turned => exact h.turned
  case keys => exact h.keys
  case position => exact h.position
  case settled => exact fun key hkey => (h.settled key hkey).of_missing_subset hmissing
  case covered =>
    intro key hkey
    rcases h.covered key hkey with h' | h' | h' | h' | h'
    · exact .inl h'
    · exact .inr (.inl h')
    · exact .inr (.inr (.inl h'))
    · exact .inr (.inr (.inr (.inl h')))
    · rw [Option.some.inj h'] at hcontent
      cases hcontent
  case records => exact h.records
  case blobs => exact fun o ho => hpage o (h.blobs o ho)
  case wanted =>
    intro o ho
    cases ho
  case tried =>
    intro o ho
    obtain ⟨hblob, haccount | hqueued | hcurrent⟩ := h.tried o ho
    · exact ⟨hblob, .inl (haccount.imp_left fun hm => hmissing hm)⟩
    · exact ⟨hblob, .inr (.inl hqueued)⟩
    · rw [← Option.some.inj hcurrent]
      exact ⟨hcontent, .inl (.inl (by simp [Round.without]))⟩

lemma missing_spec {object : Object} (h : Resting round before s) :
    wp (Session.missing object)
      (fun r t => Resting (round.without object) (before ++ r) t ∧
        Said (round.without object) t.replica.calls before r)
      (fun _ t => Tallied t) s := by
  have hcounted : Tallied s := h.toBase.toTallied
  unfold Session.missing
  rw [wp_bind, wp_get]
  cases hdownload : s.pull.download with
  | none => exact hcounted
  | some d =>
    have hwork := (h.work hdownload).takeDownload
    dsimp only
    rw [wp_bind, wp_modify, wp_guard]
    refine ⟨fun _ => hcounted.frame rfl rfl, fun hsame => ?_⟩
    have hobject : d.object = object := by
      by_contra hne
      exact hsame (.inl hne)
    have hcontent : object.blob.isSome := by
      by_contra hne
      exact hsame (.inr (.inl (by simpa using hne)))
    rw [hobject] at hwork
    rw [wp_bind, wp_modify]
    have hstart := hwork.withoutContent hcontent
    rw [← List.append_nil before] at hstart
    exact advance_spec hstart (.nil before) rfl

/-! ## The answering side -/

omit [ReplicationStorage R] [LawfulStorage R] [ContentSchema Op] in
/-- Code of the answering side that does not need the storage. -/
lemma onSource_extends {α : Type} (m : Fallible IoError Source α) (p : Source × Traced R) :
    wp (Source.onSource m) (fun _ q => Extends p.2.calls q.2.calls)
      (fun _ q => Extends p.2.calls q.2.calls) p := by
  unfold Source.onSource
  rw [wp_zoom]
  apply wp_of_exec
  · intro a t _
    exact .refl _
  · intro e t _
    exact .refl _

omit [LawfulStorage R] [ContentSchema Op] in
lemma freeze_extends (p : Source × Traced R) :
    wp (Source.freeze (R := Traced R)) (fun _ q => Extends p.2.calls q.2.calls)
      (fun _ q => Extends p.2.calls q.2.calls) p := by
  unfold Source.freeze
  rw [wp_bind]
  apply wp_onStorage_call
  · intro snapshot store _
    have hplain : (Call.snapshot (.ok snapshot)).Plain := ⟨rfl, rfl⟩
    rw [wp_bind, wp_lift]
    refine ⟨fun order _ => ?_, fun _ _ => hplain.extends _⟩
    exact hplain.extends _
  · intro e store
    exact Call.Plain.extends ⟨rfl, rfl⟩ _

omit [LawfulStorage R] [ContentSchema Op] in
lemma inventory_extends (after : Option RecordKey) (p : Source × Traced R) :
    wp (Source.inventory (R := Traced R) after) (fun _ q => Extends p.2.calls q.2.calls)
      (fun _ q => Extends p.2.calls q.2.calls) p := by
  have hlocate : wp (Source.locate (R := Traced R) after) (fun _ q => Extends p.2.calls q.2.calls)
      (fun _ q => Extends p.2.calls q.2.calls) p := by
    unfold Source.locate
    rw [wp_bind, wp_get, wp_ite]
    refine ⟨fun _ => freeze_extends p, fun _ => ?_⟩
    rw [wp_ite]
    exact ⟨fun _ => .refl _, fun _ => .refl _⟩
  unfold Source.inventory
  rw [wp_bind, wp_get, wp_guard]
  refine ⟨fun _ => .refl _, fun _ => ?_⟩
  rw [wp_bind]
  apply wp_mono hlocate
  · intro _ q hq
    exact hq
  · intro e q hq
    exact hq

omit [LawfulStorage R] [ContentSchema Op] in
lemma load_extends (object : Object) (p : Source × Traced R) :
    wp (Source.load (R := Traced R) object) (fun _ q => Extends p.2.calls q.2.calls)
      (fun _ q => Extends p.2.calls q.2.calls) p := by
  unfold Source.load
  rw [wp_bind, wp_get]
  cases p.1.snapshot with
  | none => exact .refl _
  | some snapshot =>
    dsimp only
    cases snapshot.record object.record with
    | none => exact .refl _
    | some encoded =>
      dsimp only
      cases object.blob with
      | none => exact .refl _
      | some hash =>
        apply wp_onStorage_call
        · intro bytes store _
          exact Call.Plain.extends ⟨rfl, rfl⟩ _
        · intro e store
          exact Call.Plain.extends ⟨rfl, rfl⟩ _

omit [LawfulStorage R] [ContentSchema Op] in
lemma need_extends (object : Object) (offset : ℕ) (p : Source × Traced R) :
    wp (Source.need (R := Traced R) object offset) (fun _ q => Extends p.2.calls q.2.calls)
      (fun _ q => Extends p.2.calls q.2.calls) p := by
  unfold Source.need
  rw [wp_bind, wp_get, wp_guard]
  refine ⟨fun _ => .refl _, fun _ => ?_⟩
  rw [wp_ite]
  constructor
  · intro _
    rw [wp_guard]
    refine ⟨fun _ => .refl _, fun _ => ?_⟩
    rw [wp_bind]
    apply wp_mono (load_extends object p)
    · intro bytes q hq
      cases bytes with
      | none => exact hq
      | some bytes =>
        dsimp only
        rw [wp_bind]
        apply wp_mono (onSource_extends _ q)
        · intro _ q' hq'
          apply wp_mono (onSource_extends _ q')
          · intro _ q'' hq''
            exact hq.trans (hq'.trans hq'')
          · intro e q'' hq''
            exact hq.trans (hq'.trans hq'')
        · intro e q' hq'
          exact hq.trans hq'
    · intro e q hq
      exact hq
  · intro _
    exact onSource_extends _ p

/-! ## Turns -/

/-- The round that a message leads to. -/
def Round.after (round : Round) : Message → Round
  | .page offset _ records _ => round.turn offset records
  | .missing record blob => round.without ⟨record, blob⟩
  | _ => round

omit [ReplicationStorage R] [LawfulStorage R] in
/-- A reply that says nothing about the pulling side. -/
lemma Resting.reply {reply : Message} (h : Resting round before s)
    (hreply : Vouched round s.replica.calls before reply) :
    Resting round (before ++ [reply]) s ∧ Said round s.replica.calls before [reply] := by
  constructor
  · have hsubset : before ⊆ before ++ [reply] := List.subset_append_left _ _
    rcases h with h | ⟨download, hdownload, h⟩
    · exact .inl ⟨h.toBase.sent_mono hsubset, h.download, h.noRecords, h.noBlobs, h.noStaged,
        h.settled⟩
    · exact .inr ⟨download, hdownload, h.sent_mono hsubset⟩
  · apply (Said.nil before).snoc
    rw [List.append_nil]
    exact hreply

omit [ReplicationStorage R] [LawfulStorage R] in
/-- Without a reply nothing is said. -/
lemma Resting.silent (h : Resting round before s) :
    Resting round (before ++ []) s ∧ Said round s.replica.calls before [] := by
  rw [List.append_nil]
  exact ⟨h, .nil before⟩

/-- What the answering side may reply. -/
def Message.IsAnswer : Message → Prop
  | .page .. | .chunk .. | .missing .. => True
  | _ => False

lemma Message.IsAnswer.vouched {message : Message} (h : message.IsAnswer) (calls : List Call)
    (sent : List Message) : Vouched round calls sent message := by
  cases message with
  | page | chunk | missing => trivial
  | hello | inventory | need | ack | checked => cases h

omit [LawfulStorage R] [ContentSchema Op] in
lemma inventory_answer (after : Option RecordKey) (p : Source × Traced R) :
    wp (Source.inventory (R := Traced R) after) (fun a _ => a.IsAnswer) (fun _ _ => True) p := by
  unfold Source.inventory
  rw [wp_bind, wp_get, wp_guard]
  refine ⟨fun _ => trivial, fun _ => ?_⟩
  rw [wp_bind]
  apply wp_of_exec
  · intro _ q _
    exact trivial
  · intro e q _
    trivial

omit [LawfulStorage R] [ContentSchema Op] [ReplicationStorage R] in
lemma sendChunk_answer (object : Object) (offset : ℕ) (source : Source) :
    wp (Source.sendChunk object offset) (fun a _ => a.IsAnswer) (fun _ _ => True) source := by
  unfold Source.sendChunk
  rw [wp_bind, wp_get]
  cases source.active with
  | none => trivial
  | some active =>
    obtain ⟨active, bytes, next⟩ := active
    dsimp only
    rw [wp_guard]
    refine ⟨fun _ => trivial, fun _ => ?_⟩
    rw [wp_guard]
    refine ⟨fun _ => trivial, fun _ => ?_⟩
    rw [wp_guard]
    exact ⟨fun _ => trivial, fun _ => trivial⟩

omit [LawfulStorage R] [ContentSchema Op] in
lemma need_answer (object : Object) (offset : ℕ) (p : Source × Traced R) :
    wp (Source.need (R := Traced R) object offset) (fun a _ => a.IsAnswer) (fun _ _ => True) p := by
  have hsend : ∀ q : Source × Traced R,
      wp (Source.onSource (Source.sendChunk object offset)) (fun a _ => a.IsAnswer)
        (fun _ _ => True) q := by
    intro q
    unfold Source.onSource
    rw [wp_zoom]
    exact sendChunk_answer object offset q.1
  unfold Source.need
  rw [wp_bind, wp_get, wp_guard]
  refine ⟨fun _ => trivial, fun _ => ?_⟩
  rw [wp_ite]
  refine ⟨fun _ => ?_, fun _ => hsend p⟩
  rw [wp_guard]
  refine ⟨fun _ => trivial, fun _ => ?_⟩
  rw [wp_bind]
  apply wp_of_exec
  · intro bytes q _
    cases bytes with
    | none => exact trivial
    | some bytes =>
      dsimp only
      rw [wp_bind]
      apply wp_of_exec
      · intro _ q' _
        exact hsend q'
      · intro e q' _
        trivial
  · intro e q _
    trivial

omit [ReplicationStorage R] [LawfulStorage R] in
/-- A request of the peer is answered and does not concern the pulling side. -/
lemma request_spec {m : Fallible IoError (Source × Traced R) Message} (h : Resting round before s)
    (hcalls : wp m (fun _ q => Extends s.replica.calls q.2.calls)
      (fun _ q => Extends s.replica.calls q.2.calls) (s.source, s.replica))
    (hanswer : wp m (fun a _ => a.IsAnswer) (fun _ _ => True) (s.source, s.replica)) :
    wp (Session.onSource m >>= fun reply => pure [reply])
      (fun r t => Resting round (before ++ r) t ∧ Said round t.replica.calls before r)
      (fun _ t => Tallied t) s := by
  rw [wp_bind]
  unfold Session.onSource
  rw [wp_zoom]
  apply wp_mono (wp_and hcalls hanswer)
  · rintro a q ⟨hq, ha⟩
    rw [wp_pure]
    have hrest : Resting round before { s with source := q.1, replica := q.2 } :=
      h.frame hq rfl rfl rfl rfl
    exact hrest.reply (ha.vouched _ _)
  · rintro e q ⟨hq, -⟩
    exact h.toBase.toTallied.frame hq.same rfl

omit [ReplicationStorage R] [LawfulStorage R] in
/-- A confirmation of the peer does not concern the pulling side. -/
lemma confirmation_spec {m : Fallible IoError Source Unit}
    {f : Session (Traced R) → Session (Traced R)}
    (h : Resting round before s)
    (hf : ∀ t, (f t).replica = t.replica ∧ (f t).pull = t.pull ∧
      (f t).localSnapshot = t.localSnapshot ∧ (f t).progress.records = t.progress.records ∧
      (f t).progress.unavailable = t.progress.unavailable) :
    wp (Session.onSource (Source.onSource m) >>= fun _ => modify f >>= fun _ => pure [])
      (fun r t => Resting round (before ++ r) t ∧ Said round t.replica.calls before r)
      (fun _ t => Tallied t) s := by
  rw [wp_bind]
  unfold Session.onSource
  rw [wp_zoom]
  apply wp_mono (onSource_extends m _)
  · intro a q hq
    rw [wp_bind, wp_modify, wp_pure]
    obtain ⟨hreplica, hpull, hlocal, hrecords, hunavailable⟩ :=
      hf { s with source := q.1, replica := q.2 }
    apply Resting.silent
    apply h.frame
    · rw [hreplica]
      exact hq
    · rw [hpull]
    · rw [hlocal]
    · rw [hrecords]
    · rw [hunavailable]
  · intro e q hq
    exact h.toBase.toTallied.frame hq.same rfl

/-- Every message of an accepted peer keeps the invariant. -/
lemma dispatch_spec (message : Message) (h : Resting round before s) :
    wp (Session.dispatch message)
      (fun r t => Resting (round.after message) (before ++ r) t ∧
        Said (round.after message) t.replica.calls before r)
      (fun _ t => Tallied t) s := by
  cases message with
  | hello => exact h.toBase.toTallied
  | inventory after => exact request_spec h (inventory_extends after _) (inventory_answer after _)
  | need record blob offset =>
    exact request_spec h (need_extends ⟨record, blob⟩ offset _) (need_answer ⟨record, blob⟩ offset _)
  | ack record blob =>
    have hack := confirmation_spec (m := Source.ack ⟨record, blob⟩)
      (f := Session.acknowledged ⟨record, blob⟩) h (by
        intro t
        unfold Session.acknowledged
        split <;> exact ⟨rfl, rfl, rfl, rfl, rfl⟩)
    rw [wp_bind] at hack
    show wp (Session.acknowledge ⟨record, blob⟩ >>= fun _ => pure []) _ _ _
    unfold Session.acknowledge
    rw [wp_bind, wp_bind]
    exact hack
  | checked position =>
    exact confirmation_spec (m := Source.checked position) (f := id) h
      fun t => ⟨rfl, rfl, rfl, rfl, rfl⟩
  | page offset total records more =>
    show wp (Session.page offset total records more >>= fun _ => Session.advance []) _ _ _
    rw [wp_bind]
    apply wp_mono (page_spec h)
    · rintro _ t ⟨ht, hdownload⟩
      rw [← List.append_nil before] at ht
      exact advance_spec ht (.nil before) hdownload
    · intro e t ht
      exact ht
  | chunk record blob offset total bytes => exact chunk_spec h
  | missing record blob => exact missing_spec h

omit [ReplicationStorage R] [LawfulStorage R] in
lemma Resting.updateWork (h : Resting round sent s) : Resting round sent s.updateWork :=
  h.frame (.refl _) rfl rfl rfl rfl

omit [ReplicationStorage R] [ContentSchema Op] [LawfulStorage R] in
/-- A call that remembers whether it failed. -/
lemma wp_guarded {S α : Type} {s : Session S} {m : Fallible IoError (Session S) α}
    {ok : α → Session S → Prop} {err : IoError → Session S → Prop}
    (h : wp m (fun a t => ok a { t with failed := false })
      (fun e t => err e { t with failed := true }) s) : wp (Session.guarded m) ok err s := by
  have hexec : (Session.guarded m).exec s
      = ((m.exec s).1, { (m.exec s).2 with failed := !(m.exec s).1.isOk }) := rfl
  apply wp_of_exec
  · intro a t hrun
    rw [hexec] at hrun
    cases hm : m.exec s with
    | mk result u =>
      rw [hm] at hrun
      obtain ⟨rfl, rfl⟩ := Prod.mk.inj hrun
      have hok := wp_eq_ok h hm
      exact hok
  · intro e t hrun
    rw [hexec] at hrun
    cases hm : m.exec s with
    | mk result u =>
      rw [hm] at hrun
      obtain ⟨rfl, rfl⟩ := Prod.mk.inj hrun
      have herr := wp_eq_error h hm
      exact herr

/-- The round after an accepted call of `tick`, or after the peer's hello. -/
def Round.restarted (round : Round) : List Message → Round
  | [] => round
  | _ :: _ => {}

omit [ReplicationStorage R] [LawfulStorage R] in
/-- A round starts from a fresh snapshot, and nothing of it is open. -/
lemma Base.started (h : Base round sent s) (snapshot : Snapshot) (store : R) :
    Quiet {} sent ((s.recorded store (.receivingSnapshot (.ok snapshot))).started snapshot) := by
  have hround : roundSnapshot (s.replica.calls ++ [.receivingSnapshot (.ok snapshot)])
      = some snapshot := by
    rw [roundSnapshot_append]
    rfl
  have hingested : ingestedRecords (s.replica.calls ++ [.receivingSnapshot (.ok snapshot)])
      = ingestedRecords s.replica.calls := by
    rw [ingestedRecords_append]
    exact List.append_nil _
  constructor
  case toBase =>
    constructor
    case toTallied => exact h.toTallied.frame hingested rfl
    case staged => simp [Session.started]
    case known => exact fun key hkey => .inl ⟨snapshot, hround, hkey⟩
    case kept =>
      rintro key ⟨value, hvalue, hkey⟩
      have hsame : some snapshot = some value := hround.symm.trans hvalue
      rw [← Option.some.inj hsame] at hkey
      exact hkey
    case held =>
      intro key bytes hbytes
      exact .inl ⟨snapshot, List.mem_append_right _ List.mem_cons_self, hbytes⟩
    case unavailable => rfl
  case download => rfl
  case noRecords => rfl
  case noBlobs => rfl
  case noStaged => rfl
  case settled => simp

omit [LawfulStorage R] in
lemma startRound_spec (h : Resting round before s) :
    wp Session.startRound
      (fun r t => Resting (round.restarted r) (before ++ r) t ∧
        Said (round.restarted r) t.replica.calls before r)
      (fun _ t => Tallied t) s := by
  unfold Session.startRound
  rw [wp_bind]
  apply wp_call
  · intro _ store _
    have hplain : (Call.ensureScope (.ok ())).Plain := ⟨rfl, rfl⟩
    have hscope : Resting round before (s.recorded store (.ensureScope (.ok ()))) :=
      h.frame (hplain.extends _) rfl rfl rfl rfl
    rw [wp_bind, wp_get, wp_ite]
    constructor
    · intro _
      exact hscope.silent
    · intro _
      rw [wp_bind]
      apply wp_call
      · intro snapshot store' _
        rw [wp_bind, wp_modify, wp_pure]
        have hrest : Resting {} before (Session.started snapshot _) :=
          .inl (hscope.toBase.started snapshot store')
        exact hrest.updateWork.reply trivial
      · intro e store'
        have hplain' : (Call.receivingSnapshot (.error e)).Plain := ⟨rfl, rfl⟩
        exact hscope.toBase.toTallied.frame (hplain'.ingestedRecords _) rfl
  · intro e store
    exact h.toBase.toTallied.frame (Call.Plain.ingestedRecords ⟨rfl, rfl⟩ _) rfl

/-- What a call of an open session leaves behind. -/
def Accepted (round : Round) (before replies : List Message) (t : Session (Traced R)) : Prop :=
  Resting round (before ++ replies) t ∧ Said round t.replica.calls before replies ∧
    t.failed = false

omit [ReplicationStorage R] [ContentSchema Op] [LawfulStorage R] in
lemma wp_ensureOpen {ok : Unit → Session (Traced R) → Prop}
    {err : IoError → Session (Traced R) → Prop} (hopen : s.failed = false) (h : ok () s) :
    wp Session.ensureOpen ok err s := by
  unfold Session.ensureOpen
  rw [wp_bind, wp_get, wp_ite]
  refine ⟨fun hfailed => ?_, fun _ => h⟩
  rw [hopen] at hfailed
  cases hfailed

omit [LawfulStorage R] in
lemma tick_spec (h : Resting round before s) (hopen : s.failed = false) :
    wp Session.tick (fun r t => Accepted (round.restarted r) before r t)
      (fun _ t => Tallied t ∧ t.failed = true) s := by
  unfold Session.tick
  rw [wp_bind]
  apply wp_ensureOpen hopen
  apply wp_guarded
  apply wp_mono (startRound_spec h)
  · rintro r t ⟨ht, hsaid⟩
    exact ⟨ht.frame (.refl _) rfl rfl rfl rfl, hsaid, rfl⟩
  · intro e t ht
    exact ⟨ht.frame rfl rfl, rfl⟩

/-- The round after a received message. -/
def Round.received (round : Round) (message : Message) (replies : List Message) : Round :=
  match message with
  | .hello .. => round.restarted replies
  | message => round.after message

omit [LawfulStorage R] in
lemma negotiate_spec (message : Message) (h : Resting round before s) (hopen : s.failed = false) :
    wp (Session.negotiate message)
      (fun r t => Resting (round.received message r) (before ++ r) t ∧
        Said (round.received message r) t.replica.calls before r)
      (fun _ t => Tallied t) s := by
  have hcounted : Tallied s := h.toBase.toTallied
  unfold Session.negotiate
  rw [wp_bind, wp_get, wp_guard]
  refine ⟨fun _ => hcounted, fun _ => ?_⟩
  rw [wp_guard]
  refine ⟨fun _ => hcounted, fun hsame => ?_⟩
  rw [not_not] at hsame
  rw [wp_bind, wp_modify, hsame]
  have hrest : Resting round before
      { s with progress := { s.progress with accepted := true } } :=
    h.frame (.refl _) rfl rfl rfl rfl
  apply wp_mono (tick_spec hrest hopen)
  · rintro r t ⟨ht, hsaid, -⟩
    exact ⟨ht, hsaid⟩
  · rintro e t ⟨ht, -⟩
    exact ht

lemma process_spec (message : Message) (h : Resting round before s) (hopen : s.failed = false) :
    wp (Session.process message)
      (fun r t => Resting (round.received message r) (before ++ r) t ∧
        Said (round.received message r) t.replica.calls before r)
      (fun _ t => Tallied t) s := by
  unfold Session.process
  rw [wp_bind]
  apply wp_call
  · intro _ store _
    have hplain : (Call.ensureScope (.ok ())).Plain := ⟨rfl, rfl⟩
    have hscope : Resting round before (s.recorded store (.ensureScope (.ok ()))) :=
      h.frame (hplain.extends _) rfl rfl rfl rfl
    rw [wp_bind, wp_get, wp_ite]
    refine ⟨fun _ => ?_, fun _ => negotiate_spec message hscope hopen⟩
    rw [wp_bind]
    cases message with
    | hello version encoding space => exact hscope.toBase.toTallied
    | _ =>
      apply wp_mono (dispatch_spec _ hscope)
      · rintro r t ⟨ht, hsaid⟩
        exact ⟨ht.updateWork, hsaid⟩
      · intro e t ht
        exact ht
  · intro e store
    exact h.toBase.toTallied.frame (Call.Plain.ingestedRecords ⟨rfl, rfl⟩ _) rfl

lemma receive_spec (message : Message) (h : Resting round before s) (hopen : s.failed = false) :
    wp (Session.receive message) (fun r t => Accepted (round.received message r) before r t)
      (fun _ t => Tallied t ∧ t.failed = true) s := by
  unfold Session.receive
  rw [wp_bind]
  apply wp_ensureOpen hopen
  apply wp_guarded
  apply wp_mono (process_spec message h hopen)
  · rintro r t ⟨ht, hsaid⟩
    exact ⟨ht.frame (.refl _) rfl rfl rfl rfl, hsaid, rfl⟩
  · intro e t ht
    exact ⟨ht.frame rfl rfl, rfl⟩

/-! ## Histories -/

omit [ContentSchema Op] in
lemma Round.next_tick (round : Round) (r : List Message) (calls : List Call) :
    round.next ⟨.tick, .ok r, calls⟩ = round.restarted r := by
  cases r <;> rfl

omit [ContentSchema Op] in
lemma Round.next_receive (round : Round) (message : Message) (r : List Message)
    (calls : List Call) :
    round.next ⟨.receive message, .ok r, calls⟩ = round.received message r := by
  cases message with
  | hello => cases r <;> rfl
  | _ => rfl

/-- One call of an open session. -/
lemma code_spec (input : Input) (h : Resting round before s) (hopen : s.failed = false) :
    wp (Peer.code input)
      (fun r t => Accepted (round.next ⟨input, .ok r, t.replica.calls⟩) before r t)
      (fun _ t => Tallied t ∧ t.failed = true) s := by
  cases input with
  | receive message =>
    apply wp_mono (receive_spec message h hopen)
    · intro r t ht
      rw [Round.next_receive]
      exact ht
    · intro e t ht
      exact ht
  | tick =>
    apply wp_mono (tick_spec h hopen)
    · intro r t ht
      rw [Round.next_tick]
      exact ht
    · intro e t ht
      exact ht

omit [ContentSchema Op] [LawfulStorage R] in
/-- A failed session fails at once. -/
lemma code_failed (input : Input) (hfailed : s.failed = true) :
    (Peer.code input).exec s
      = (.error (invalid "failed replication session; reconnect"), s) := by
  have hopen : (Session.ensureOpen (R := Traced R)).exec s
      = (.error (invalid "failed replication session; reconnect"), s) := by
    unfold Session.ensureOpen
    rw [exec_bind_of_ok (exec_get s), if_pos hfailed]
    rfl
  cases input with
  | receive message => exact exec_bind_of_error hopen
  | tick => exact exec_bind_of_error hopen

/-- A history that ends with a failure and calls that fail at once. -/
def Closed (calls : List Call) (turns : List Turn) : Prop :=
  ∃ before turn after, turns = before ++ turn :: after ∧
    (∀ earlier ∈ before, earlier.result.isOk = true) ∧ turn.result.isOk = false ∧
    turn.calls = calls ∧ ∀ later ∈ after, later.result.isOk = false ∧ later.calls = calls

omit [ContentSchema Op] in
lemma Closed.snoc {calls : List Call} {turns : List Turn} {turn : Turn} (h : Closed calls turns)
    (hresult : turn.result.isOk = false) (hcalls : turn.calls = calls) :
    Closed calls (turns ++ [turn]) := by
  obtain ⟨before, first, after, rfl, hbefore, hfirst, hcalls', hafter⟩ := h
  refine ⟨before, first, after ++ [turn], by simp, hbefore, hfirst, hcalls', ?_⟩
  intro later hlater
  rcases List.mem_append.mp hlater with hlater | hlater
  · exact hafter later hlater
  · rw [List.mem_singleton] at hlater
    subst hlater
    exact ⟨hresult, hcalls⟩

omit [ContentSchema Op] in
/-- After any failed call of such a history, every call fails without touching the storage. -/
lemma Closed.later {calls : List Call} {turns before after : List Turn} {turn : Turn}
    (h : Closed calls turns) (hturns : turns = before ++ turn :: after)
    (hfailed : turn.result.isOk = false) :
    ∀ later ∈ after, later.result.isOk = false ∧ later.calls = turn.calls := by
  obtain ⟨start, first, rest, hsplit, hstart, -, hcalls, hrest⟩ := h
  rw [hturns] at hsplit
  -- the failed call is the first one, or one of those after it
  rcases List.append_eq_append_iff.mp hsplit with ⟨mid, hmid, htail⟩ | ⟨mid, hmid, htail⟩
  · cases mid with
    | nil =>
      obtain ⟨rfl, rfl⟩ := List.cons.inj htail
      intro later hlater
      rw [hcalls]
      exact hrest later hlater
    | cons m mid =>
      obtain ⟨rfl, -⟩ := List.cons.inj htail
      have hok := hstart turn (by rw [hmid]; simp)
      rw [hfailed] at hok
      cases hok
  · cases mid with
    | nil =>
      obtain ⟨rfl, rfl⟩ := List.cons.inj htail
      intro later hlater
      rw [hcalls]
      exact hrest later hlater
    | cons m mid =>
      obtain ⟨rfl, rfl⟩ := List.cons.inj htail
      intro later hlater
      rw [(hrest turn (by simp)).2]
      exact hrest later (by simp [hlater])

/-- Every message of a history was vouched for when it was sent. -/
def VouchedAll (turns : List Turn) : Prop :=
  ∀ before turn after, turns = before ++ turn :: after →
    Said (roundOf (before ++ [turn])) turn.calls (emitted before) (repliesOf turn.result)

lemma VouchedAll.snoc {turns : List Turn} {turn : Turn} (h : VouchedAll turns)
    (hturn : Said (roundOf (turns ++ [turn])) turn.calls (emitted turns)
      (repliesOf turn.result)) : VouchedAll (turns ++ [turn]) := by
  intro before t after heq
  rcases List.eq_nil_or_concat after with rfl | ⟨after, last, rfl⟩
  · obtain ⟨rfl, hlast⟩ := List.append_inj' heq rfl
    rw [← (List.cons.inj hlast).1]
    exact hturn
  · rw [List.concat_eq_append, ← List.cons_append, ← List.append_assoc] at heq
    obtain ⟨rfl, -⟩ := List.append_inj' heq rfl
    exact h before t after rfl

/-- The invariant of a peer: it is open and at rest, or it has failed for good. -/
structure Peer.Sound (peer : Peer R) : Prop extends Tallied peer.session where
  vouched : VouchedAll peer.turns
  state : (peer.session.failed = false ∧
      Resting (roundOf peer.turns) (emitted peer.turns) peer.session ∧
      ∀ turn ∈ peer.turns, turn.result.isOk = true) ∨
    (peer.session.failed = true ∧ Closed peer.session.replica.calls peer.turns)

omit [ReplicationStorage R] [LawfulStorage R] in
lemma Peer.Sound.new (store : R) : (Peer.new store).Sound := by
  have hcounted : Tallied (Peer.new store).session := ⟨rfl, by intro record h; cases h⟩
  refine ⟨hcounted, ?_, .inl ⟨rfl, .inl ⟨⟨hcounted, ?_, ?_, ?_, ?_, rfl⟩, rfl, rfl, rfl, rfl, ?_⟩, ?_⟩⟩
  · intro before turn after heq
    simp [Peer.new] at heq
  · intro record h
    cases h
  · intro key hkey
    rw [show (Peer.new store).session.localSnapshot = Snapshot.empty from rfl,
      Snapshot.empty_contains] at hkey
    cases hkey
  · rintro key ⟨snapshot, hsnapshot, -⟩
    cases hsnapshot
  · intro key bytes hbytes
    have hcontains := Snapshot.contains_iff.mpr ⟨bytes, hbytes⟩
    rw [show (Peer.new store).session.localSnapshot = Snapshot.empty from rfl,
      Snapshot.empty_contains] at hcontains
    cases hcontains
  · intro key hkey
    cases hkey
  · intro turn hturn
    cases hturn

omit [ContentSchema Op] in
lemma emitted_append (turns : List Turn) (turn : Turn) :
    emitted (turns ++ [turn]) = emitted turns ++ repliesOf turn.result := by
  simp [emitted]

omit [ContentSchema Op] in
lemma roundOf_append (turns : List Turn) (turn : Turn) :
    roundOf (turns ++ [turn]) = (roundOf turns).next turn := by
  simp [roundOf]

omit [LawfulStorage R] in
/-- A failed call says nothing. -/
lemma VouchedAll.failed {turns : List Turn} {turn : Turn} (h : VouchedAll turns)
    (hfailed : turn.result.isOk = false) : VouchedAll (turns ++ [turn]) := by
  apply h.snoc
  have hnone : repliesOf turn.result = [] := by
    cases hresult : turn.result with
    | ok replies =>
      rw [hresult] at hfailed
      cases hfailed
    | error e => rfl
  rw [hnone]
  exact .nil _

/-- One call keeps the invariant. -/
lemma Peer.Sound.take {peer : Peer R} (h : peer.Sound) (input : Input) :
    (peer.take input).Sound := by
  rcases h.state with ⟨hopen, hresting, hclean⟩ | ⟨hfailed, hclosed⟩
  · have hcode := code_spec input hresting hopen
    cases hrun : (Peer.code input).exec peer.session with
    | mk result t =>
      have htake : peer.take input
          = ⟨t, peer.turns ++ [⟨input, result, t.replica.calls⟩]⟩ := by
        unfold Peer.take
        rw [hrun]
      rw [htake]
      cases result with
      | ok r =>
        obtain ⟨ht, hsaid, hstill⟩ := wp_eq_ok hcode hrun
        refine ⟨ht.toBase.toTallied, ?_, .inl ⟨hstill, ?_, ?_⟩⟩
        · apply h.vouched.snoc
          rw [roundOf_append]
          exact hsaid
        · rw [roundOf_append, emitted_append]
          exact ht
        · intro turn hturn
          rcases List.mem_append.mp hturn with hturn | hturn
          · exact hclean turn hturn
          · rw [List.mem_singleton] at hturn
            subst hturn
            rfl
      | error e =>
        obtain ⟨hcounted, hfailed⟩ := wp_eq_error hcode hrun
        refine ⟨hcounted, h.vouched.failed rfl, .inr ⟨hfailed, ?_⟩⟩
        exact ⟨peer.turns, _, [], rfl, hclean, rfl, rfl, by simp⟩
  · have htake : peer.take input = ⟨peer.session, peer.turns
        ++ [⟨input, .error (invalid "failed replication session; reconnect"),
          peer.session.replica.calls⟩]⟩ := by
      unfold Peer.take
      rw [code_failed input hfailed]
    rw [htake]
    exact ⟨h.toTallied, h.vouched.failed rfl, .inr ⟨hfailed, hclosed.snoc rfl rfl⟩⟩

omit [ReplicationStorage R] [LawfulStorage R] in
/-- A change of the storage does not concern the session. -/
lemma Peer.Sound.change {peer : Peer R} (h : peer.Sound) (f : R → R) : (peer.change f).Sound := by
  refine ⟨h.toTallied.frame rfl rfl, h.vouched, ?_⟩
  rcases h.state with ⟨hopen, hresting, hclean⟩ | hfailed
  · exact .inl ⟨hopen, hresting.frame (.refl _) rfl rfl rfl rfl, hclean⟩
  · exact .inr hfailed

/-- Every sequence of events keeps the invariant. -/
lemma Peer.Sound.run {peer : Peer R} (h : peer.Sound) (events : List (Peer.Event R)) :
    (peer.run events).Sound := by
  induction events generalizing peer with
  | nil => exact h
  | cons event events ih =>
    cases event with
    | call input => exact ih (h.take input)
    | change f => exact ih (h.change f)

omit [ReplicationStorage R] [LawfulStorage R] in
lemma Peer.Sound.truthful {peer : Peer R} (h : peer.Sound) : Truthful peer where
  vouched before turn after hturns := h.vouched before turn after hturns
  counted := h.counted
  derived := h.derived
  closed before turn after hturns hfailed := by
    rcases h.state with ⟨-, -, hclean⟩ | ⟨-, hclosed⟩
    · have hok := hclean turn (by rw [hturns]; simp)
      rw [hfailed] at hok
      cases hok
    · exact hclosed.later hturns hfailed

/-- No lie to the peer, whatever it sends and whatever the storage does. -/
theorem Peer.never_lies (store : R) (events : List (Peer.Event R)) :
    Truthful ((Peer.new store).run events) :=
  ((Peer.Sound.new store).run events).truthful

end EditChain.Sync

namespace EditChain.Sync

open Core Store

section Messages

local instance : Schema OpId := messageSchema
local instance : Blake3 := messageDigests
local instance : ContentSchema OpId := messageContent

/-- A replica in memory as the storage of a session. -/
local instance : ReplicationStorage (StoreReplica MemoryLog (List Bytes) ExportScope) :=
  StoreReplica.storage memoryAdapters

/-- A peer offers one record and sends it. -/
def messageEvents {R : Type} : List (Peer.Event R) :=
  [.call (.receive (.hello peerVersion 1 "chain")),
    .call (.receive (.page 0 1 [messageKeys.1] false)),
    .call (.receive (.chunk messageKeys.1 none 0 29 messageV1))]

/-- What is answered to that. -/
def messageAnswers : List Message :=
  [.inventory none, .need messageKeys.1 none 0, .ack messageKeys.1 none, .checked 1]

/-- The replica without records. -/
def emptyReplica : StoreReplica MemoryLog (List Bytes) ExportScope :=
  .new ⟨[], []⟩ [] ⟨"chain", none, none⟩

local instance sentChecksum : Checksum := crc32cChecksum
local instance sentJson : ScopeJson := ⟨fun _ => 0⟩

/-- A new workspace, bound to the space of the chain. -/
def boundWorkspace : Workspace :=
  ((Replica.locked (Replica.inside (Replica.bindSpace true))).exec
    ⟨Root.empty, ⟨"chain", .new rootPath, 0⟩⟩).2

/-- With either storage the record is acknowledged, its page is checked, and neither is a lie. -/
theorem Peer.never_lies_to_sender :
    (emitted ((Peer.new emptyReplica).run messageEvents).turns = messageAnswers
        ∧ Truthful ((Peer.new emptyReplica).run messageEvents))
      ∧ emitted ((Peer.new boundWorkspace).run messageEvents).turns = messageAnswers
        ∧ Truthful ((Peer.new boundWorkspace).run messageEvents) :=
  haveI := StoreReplica.lawfulStorage memoryAdapters
  ⟨⟨by decide +kernel, Peer.never_lies emptyReplica messageEvents⟩,
    by decide +kernel, Peer.never_lies boundWorkspace messageEvents⟩

end Messages

end EditChain.Sync
