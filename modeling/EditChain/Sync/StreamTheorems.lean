import EditChain.Sync.DecoderTheorems
import EditChain.Sync.Stream

/-!
# Byte streams carry the messages of the sessions

Two connections joined by links behave as two joined sessions, however the links cut and break the
streams: the bytes on their way to a connection are the frames of the messages that its peer has
sent and it has not taken in, up to where the peer's link broke.
-/

namespace EditChain.Sync.Stream

open Core Fallible ByteString UnitReader

/-! ## Frames on their way -/

/-- Each message has its frame. -/
def Encoded (messages : List Message) (frames : List Bytes) : Prop :=
  List.Forall₂ (fun message frame => encodeMessage message = .ok frame) messages frames

/-- The bytes are the frames of the first messages, of all of them if the stream is whole. -/
def Carries (whole : Prop) (bytes : Bytes) (messages : List Message) : Prop :=
  ∃ stream frames, stream <+: messages ∧ Encoded stream frames ∧ bytes <+: frames.flatten
    ∧ (whole → stream = messages ∧ bytes = frames.flatten)

lemma Carries.nil (whole : Prop) : Carries whole [] [] :=
  ⟨[], [], List.prefix_rfl, .nil, List.prefix_rfl, fun _ => ⟨rfl, rfl⟩⟩

lemma Carries.mono {p q : Prop} {bytes : Bytes} {messages : List Message}
    (h : Carries p bytes messages) (hpq : q → p) : Carries q bytes messages := by
  obtain ⟨stream, frames, hstream, hframes, hbytes, hwhole⟩ := h
  exact ⟨stream, frames, hstream, hframes, hbytes, fun hq => hwhole (hpq hq)⟩

/-- Messages that are not sent end the stream. -/
lemma Carries.unsent {p : Prop} {bytes : Bytes} {messages : List Message}
    (h : Carries p bytes messages) (more : List Message) :
    Carries False bytes (messages ++ more) := by
  obtain ⟨stream, frames, hstream, hframes, hbytes, -⟩ := h
  exact ⟨stream, frames, hstream.trans (List.prefix_append _ _), hframes, hbytes, False.elim⟩

/-- A part of the next frame follows a whole stream. -/
lemma Carries.write {bytes part frame : Bytes} {messages : List Message} {message : Message}
    (h : Carries True bytes messages) (hframe : encodeMessage message = .ok frame)
    (hpart : part <+: frame) :
    Carries (part = frame) (bytes ++ part) (messages ++ [message]) := by
  obtain ⟨stream, frames, -, hframes, -, hwhole⟩ := h
  obtain ⟨rfl, rfl⟩ := hwhole trivial
  have hflatten : (frames ++ [frame]).flatten = frames.flatten ++ frame := by simp
  refine ⟨stream ++ [message], frames ++ [frame], List.prefix_rfl,
    List.rel_append hframes (.cons hframe .nil), ?_, fun hall => ⟨rfl, ?_⟩⟩
  · rw [hflatten]
    exact (List.prefix_append_right_inj _).mpr hpart
  · rw [hflatten, hall]

/-! ## Fragments -/

section Fragments

variable [PostcardReader]

/-- Whatever the next fragment is, the decoder hands out what the peer sent next, and the rest of
the stream stays on its way. -/
lemma Carries.push {whole : Prop} {decoder : FrameDecoder} {sent : Bytes}
    {messages : List Message} (h : Carries whole (decoder.bytes ++ sent) messages)
    (hround : ∀ message ∈ messages,
      PostcardReader.takeMessage message.payload = .ok (message, []))
    {count : ℕ} (hcount : (sent.take count).length ≤ maxFrameBytes) :
    ∃ out decoder' later, (FrameDecoder.push (sent.take count)).exec decoder = (.ok out, decoder')
      ∧ messages = out ++ later ∧ Carries whole (decoder'.bytes ++ sent.drop count) later := by
  obtain ⟨stream, frames, ⟨unsent, rfl⟩, hframes, hbytes, hwhole⟩ := h
  have hlength : frames.length = stream.length := hframes.length_eq.symm
  have hwrites := writes_encoded hframes fun message hmessage =>
    hround message (List.mem_append_left _ hmessage)
  have hsplit : decoder.bytes ++ sent
      = (decoder.bytes ++ sent.take count) ++ sent.drop count := by
    rw [List.append_assoc, List.take_append_drop]
  -- the fragment ends within the stream
  have hstart : decoder.bytes ++ sent.take count <+: contents (frames.zip stream) := by
    rw [contents_zip hlength]
    refine List.IsPrefix.trans ?_ hbytes
    rw [hsplit]
    exact List.prefix_append _ _
  obtain ⟨hunits, hconsumed, hending⟩ := run_of_writes hwrites hstart
  -- the whole frames in it are the first ones of the stream
  obtain ⟨k, hk, hheld, htaken, -⟩ :=
    exists_whole (decoder.bytes ++ sent.take count).length (frames.zip stream)
  have hzip : (frames.zip stream).length = stream.length := by simp [hlength]
  rw [hzip] at hk
  have hout : ((frameReader.run () (decoder.bytes ++ sent.take count)).units.map Prod.snd)
      = stream.take k := by
    rw [hunits, hheld, List.map_take, List.map_snd_zip (by omega)]
  have hsize : (frameReader.run () (decoder.bytes ++ sent.take count)).consumed
      = (frames.take k).flatten.length := by
    rw [hconsumed, htaken, ← take_zip, contents_zip (by simp [hlength])]
  have hfits : (frames.take k).flatten.length ≤ (decoder.bytes ++ sent.take count).length := by
    rw [← hsize]
    exact consumed_le () _
  have hcut : frames.flatten = (frames.take k).flatten ++ (frames.drop k).flatten := by
    rw [← List.flatten_append, List.take_append_drop]
  refine ⟨stream.take k,
    ⟨(decoder.bytes ++ sent.take count).drop (frames.take k).flatten.length⟩,
    stream.drop k ++ unsent, ?_, ?_, stream.drop k, frames.drop k, List.prefix_append _ _, ?_, ?_,
    fun hq => ?_⟩
  · rw [FrameDecoder.exec_push hcount, hout, hsize]
    refine Prod.ext ?_ rfl
    show FrameDecoder.outcome _ _ = .ok _
    rw [hending]
    split
    · rfl
    · rfl
  · rw [← List.append_assoc, List.take_append_drop]
  · exact List.forall₂_drop k hframes
  · show (decoder.bytes ++ sent.take count).drop _ ++ sent.drop count <+: _
    rw [← List.drop_append_of_le_length hfits, ← hsplit]
    have hdrop := hbytes.drop (frames.take k).flatten.length
    rw [hcut, List.drop_left] at hdrop
    exact hdrop
  · -- a whole stream has no unsent messages
    obtain ⟨hstream, hall⟩ := hwhole hq
    have hnil : unsent = [] := by
      have := congrArg List.length hstream
      rw [List.length_append] at this
      exact List.length_eq_zero_iff.mp (by omega)
    refine ⟨by rw [hnil, List.append_nil], ?_⟩
    show (decoder.bytes ++ sent.take count).drop _ ++ sent.drop count = _
    rw [← List.drop_append_of_le_length hfits, ← hsplit, hall, hcut, List.drop_left]

end Fragments

/-! ## Calls of one connection -/

variable {Op : Type} [Schema Op] [Blake3] {R S : Type}

namespace PeerConnection

lemma exec_ensureOpen {α : Type} (f : Unit → Fallible IoError (PeerConnection R Link) α)
    (c : PeerConnection R Link) (hopen : c.failed = false) :
    (ensureOpen >>= f).exec c = (f ()).exec c := by
  refine exec_bind_of_ok ?_
  unfold ensureOpen
  rw [exec_bind_of_ok (exec_get c), if_neg (by simp [hopen])]
  rfl

/-- A failed connection refuses every call. -/
lemma exec_ensureOpen_failed {α : Type} (f : Unit → Fallible IoError (PeerConnection R Link) α)
    (c : PeerConnection R Link) (hfailed : c.failed = true) :
    ((ensureOpen >>= f).exec c).2 = c := by
  have hrefused : (ensureOpen (R := R) (T := Link)).exec c
      = (.error (invalid "failed replication connection; reconnect"), c) := by
    unfold ensureOpen
    rw [exec_bind_of_ok (exec_get c), if_pos hfailed]
    rfl
  rw [exec_bind_of_error hrefused]

lemma exec_ensureStarted {α : Type} (f : Unit → Fallible IoError (PeerConnection R Link) α)
    (c : PeerConnection R Link) (hopen : c.failed = false) (hstarted : c.started = true) :
    (ensureStarted >>= f).exec c = (f ()).exec c := by
  refine exec_bind_of_ok ?_
  unfold ensureStarted
  rw [exec_ensureOpen _ c hopen, exec_bind_of_ok (exec_get c), if_neg (by simp [hstarted])]
  rfl

/-- A connection that has failed or not started refuses every call but the start. -/
lemma exec_ensureStarted_refused {α : Type}
    (f : Unit → Fallible IoError (PeerConnection R Link) α) (c : PeerConnection R Link)
    (h : ¬ (c.failed = false ∧ c.started = true)) :
    ((ensureStarted >>= f).exec c).2 = c := by
  obtain ⟨error, hrefused⟩ : ∃ error,
      (ensureStarted (R := R) (T := Link)).exec c = (.error error, c) := by
    unfold ensureStarted
    cases hfailed : c.failed with
    | true =>
      refine ⟨_, exec_bind_of_error (e := invalid "failed replication connection; reconnect") ?_⟩
      unfold ensureOpen
      rw [exec_bind_of_ok (exec_get c), if_pos hfailed]
      rfl
    | false =>
      have hstarted : ¬ c.started = true := fun hstarted => h ⟨hfailed, hstarted⟩
      rw [exec_ensureOpen _ c hfailed, exec_bind_of_ok (exec_get c), if_pos hstarted]
      exact ⟨_, rfl⟩
  rw [exec_bind_of_error hrefused]

/-- What a link has after a call that sends messages: they follow what was sent before, all of them
if the call succeeds. -/
def Sends (link link' : Link) (messages : List Message) (result : Except IoError Unit) : Prop :=
  ∀ before outbox, Carries True (before ++ link.sent) outbox →
    Carries (result = .ok ()) (before ++ link'.sent) (outbox ++ messages)

/-- The link takes the frame, or a part of it and breaks. -/
lemma exec_sendMessage (c : PeerConnection R Link) (message : Message) :
    ∃ result transport, (sendMessage message).exec c = (result, { c with transport := transport })
      ∧ Sends c.transport transport [message] result := by
  unfold sendMessage
  cases hframe : encodeMessage message with
  | error error =>
    exact ⟨_, c.transport, exec_bind_of_error (exec_lift _ c),
      fun before outbox h => (h.unsent [message]).mono fun hok => by cases hok⟩
  | ok frame =>
    rw [exec_bind_of_ok (exec_lift _ c), exec_bind_of_ok (exec_get c)]
    refine ⟨if c.transport.room frame = frame.length then .ok ()
      else .error ⟨.other, "connection reset"⟩, c.transport.accept frame, rfl,
      fun before outbox h => ?_⟩
    -- the link takes as much of the frame as it has room for
    have hpart := List.take_prefix (c.transport.room frame) frame
    have hwritten := h.write hframe hpart
    rw [List.append_assoc] at hwritten
    refine hwritten.mono fun hok => ?_
    split at hok
    · rename_i hroom
      rw [hroom, List.take_length]
    · cases hok

/-- What is sent follows what was sent; where sending stops, the stream ends. -/
lemma exec_send (c : PeerConnection R Link) (messages : List Message) :
    ∃ result transport, (send messages).exec c = (result, { c with transport := transport })
      ∧ Sends c.transport transport messages result := by
  induction messages generalizing c with
  | nil =>
    refine ⟨.ok (), c.transport, rfl, fun before outbox h => ?_⟩
    rw [List.append_nil]
    exact h.mono fun _ => trivial
  | cons message messages ih =>
    obtain ⟨result, transport, hsent, hfirst⟩ := exec_sendMessage c message
    have hsend : send (R := R) (T := Link) (message :: messages)
        = sendMessage message >>= fun _ => send messages := List.forM_cons
    rw [hsend]
    cases result with
    -- the messages after a failure are not sent
    | error error =>
      refine ⟨_, transport, exec_bind_of_error hsent, fun before outbox h => ?_⟩
      have hstopped := (hfirst before outbox h).unsent messages
      rw [List.append_assoc] at hstopped
      exact hstopped.mono fun hok => by cases hok
    | ok =>
      obtain ⟨result, transport', hlater, hrest⟩ := ih { c with transport := transport }
      rw [exec_bind_of_ok hsent]
      refine ⟨result, transport', hlater, fun before outbox h => ?_⟩
      have hall := hrest before (outbox ++ [message]) ((hfirst before outbox h).mono fun _ => rfl)
      rw [List.append_assoc] at hall
      exact hall

/-- A call of the session, and its replies on the link. -/
lemma exec_replying (c : PeerConnection R Link) (m : Fallible IoError (Session R) (List Message)) :
    ∃ result transport, (onSession m >>= fun replies => send replies).exec c
        = (result, { c with session := (m.exec c.session).2, transport := transport })
      ∧ Sends c.transport transport (repliesOf (m.exec c.session).1) result := by
  cases hm : m.exec c.session with
  | mk answer session =>
    have hcall : (onSession (T := Link) m).exec c = (answer, { c with session := session }) := by
      unfold onSession
      rw [exec_zoom, hm]
    -- an error of the session sends nothing
    cases answer with
    | error error =>
      refine ⟨_, c.transport, exec_bind_of_error hcall, fun before outbox h => ?_⟩
      exact (h.unsent []).mono fun hok => by cases hok
    | ok replies =>
      obtain ⟨result, transport, hsent, hsends⟩ := exec_send { c with session := session } replies
      exact ⟨result, transport, (exec_bind_of_ok hcall).trans hsent, hsends⟩

end PeerConnection

/-! ## A connection and its session -/

open Stream.PeerConnection

/-- Two connections and two sessions in the same states. The bytes on their way to a connection
carry what its peer has sent, after the messages that it is about to process. -/
structure Shadows (pending : List Message) (joined : Joined R S) (network : Network R S) :
    Prop where
  left : network.left.session = joined.left.session
  right : network.right.session = joined.right.session
  leftGreeted : network.left.greeted = joined.left.started
  rightGreeted : network.right.greeted = joined.right.started
  toLeft : joined.left.failed = false → ∃ later, network.right.outbox = pending ++ later
    ∧ Carries (joined.right.failed = false)
      (joined.left.decoder.bytes ++ joined.right.transport.sent) later
  toRight : joined.right.failed = false → Carries (joined.left.failed = false)
    (joined.right.decoder.bytes ++ joined.left.transport.sent) network.left.outbox

namespace Shadows

variable {pending : List Message} {joined : Joined R S} {network : Network R S}

lemma of_new (left : R) (right : S) (leftPeer rightPeer : String) :
    Shadows [] (Joined.new left right leftPeer rightPeer) (Network.new left right) where
  left := rfl
  right := rfl
  leftGreeted := rfl
  rightGreeted := rfl
  toLeft _ := ⟨[], rfl, .nil _⟩
  toRight _ := .nil _

lemma swap (h : Shadows [] joined network) : Shadows [] joined.swap network.swap where
  left := h.right
  right := h.left
  leftGreeted := h.rightGreeted
  rightGreeted := h.leftGreeted
  toLeft hopen := ⟨_, rfl, h.toRight hopen⟩
  toRight hopen := by
    obtain ⟨later, hlater, hcarries⟩ := h.toLeft hopen
    show Carries _ _ network.right.outbox
    rw [hlater]
    exact hcarries

/-- A connection that fails keeps its session, and takes nothing in any more. -/
lemma fail (h : Shadows pending joined network) {c : PeerConnection R Link}
    (hsession : c.session = joined.left.session) (hstarted : c.started = joined.left.started)
    (htransport : c.transport = joined.left.transport) (hfailed : c.failed = true) :
    Shadows [] { joined with left := c } network where
  left := h.left.trans hsession.symm
  right := h.right
  leftGreeted := h.leftGreeted.trans hstarted.symm
  rightGreeted := h.rightGreeted
  toLeft hopen := by
    rw [hfailed] at hopen
    cases hopen
  toRight hopen := by
    show Carries (c.failed = false) (_ ++ c.transport.sent) _
    rw [htransport, hfailed]
    exact (h.toRight hopen).mono fun hfalse => by cases hfalse

/-- The replies of a call go out on the link, and into the outbox of the session. -/
lemma replying (h : Shadows pending joined network) (hopen : joined.left.failed = false)
    (m : Fallible IoError (Session R) (List Message)) {result : Except IoError Unit}
    {transport : Link}
    (hsends : Sends joined.left.transport transport
      (repliesOf (m.exec joined.left.session).1) result) :
    Shadows pending
      { joined with left := { joined.left with
        session := (m.exec joined.left.session).2
        transport := transport
        failed := !result.isOk } }
      { network with left := network.left.call m } where
  left := by
    unfold Endpoint.call
    rw [h.left]
  right := h.right
  leftGreeted := h.leftGreeted
  rightGreeted := h.rightGreeted
  toLeft _ := h.toLeft hopen
  toRight hother := by
    unfold Endpoint.call
    rw [h.left]
    refine (hsends _ _ ((h.toRight hother).mono fun _ => hopen)).mono fun hok => ?_
    cases result with
    | ok => rfl
    | error error => cases hok

variable [ReplicationStorage R]

/-- The first pending message is processed as the session receives it. -/
lemma processMessage {message : Message} (h : Shadows (message :: pending) joined network)
    (hopen : joined.left.failed = false) (hstarted : joined.left.started = true) :
    ∃ result c, (processMessage message).exec joined.left = (result, c)
      ∧ c.failed = false ∧ c.started = true
      ∧ Shadows pending { joined with left := { c with failed := !result.isOk } }
        (network.act .deliver) := by
  obtain ⟨result, transport, hrun, hsends⟩ :=
    exec_replying joined.left (Session.receive message)
  obtain ⟨later, hlater, hcarries⟩ := h.toLeft hopen
  have hgreeted := h.leftGreeted.trans hstarted
  have hact : network.act .deliver = ⟨network.left.call (Session.receive message),
      { network.right with outbox := pending ++ later }⟩ := by
    unfold Network.act
    rw [hgreeted, hlater]
    rfl
  refine ⟨result, _, hrun, hopen, hstarted, ?_⟩
  rw [hact]
  have hreplied := h.replying hopen (Session.receive message) hsends
  exact
    { left := hreplied.left
      right := hreplied.right
      leftGreeted := hreplied.leftGreeted
      rightGreeted := hreplied.rightGreeted
      toLeft := fun _ => ⟨later, rfl, hcarries⟩
      toRight := hreplied.toRight }

variable [ReplicationStorage S]

/-- All pending messages are processed, or those up to a failure. -/
lemma processAll (h : Shadows pending joined network) (hopen : joined.left.failed = false)
    (hstarted : joined.left.started = true) :
    ∃ events result c, (forM pending PeerConnection.processMessage).exec joined.left = (result, c)
      ∧ c.started = true
      ∧ Shadows [] { joined with left := { c with failed := !result.isOk } }
        (network.run events) := by
  induction pending generalizing joined network with
  | nil =>
    refine ⟨[], .ok (), joined.left, rfl, hstarted, ?_⟩
    have hsame : ({ joined.left with failed := !(Except.ok () : Except IoError Unit).isOk }
        : PeerConnection R Link) = joined.left := by
      show { joined.left with failed := false } = joined.left
      rw [← hopen]
    rw [hsame]
    exact h
  | cons message pending ih =>
    obtain ⟨result, c, hrun, hnot, hgreeted, hnext⟩ := h.processMessage hopen hstarted
    have hforM : (forM (message :: pending) PeerConnection.processMessage :
        Fallible IoError (PeerConnection R Link) Unit)
        = PeerConnection.processMessage message >>= fun _ =>
          forM pending PeerConnection.processMessage := List.forM_cons
    rw [hforM]
    cases result with
    -- the session has the message, and the connection takes in no more
    | error error =>
      exact ⟨[.left .deliver], _, c, exec_bind_of_error hrun, hgreeted,
        hnext.fail rfl rfl rfl rfl⟩
    | ok =>
      have hsame : ({ c with failed := !(Except.ok () : Except IoError Unit).isOk }
          : PeerConnection R Link) = c := by
        show { c with failed := false } = c
        rw [← hnot]
      rw [hsame] at hnext
      obtain ⟨events, result, d, hrest, hstill, hlast⟩ := ih hnext hnot hgreeted
      exact ⟨.left .deliver :: events, result, d, (exec_bind_of_ok hrun).trans hrest, hstill,
        hlast⟩

/-! ### What happens at the left end -/

/-- Nothing has to happen to the sessions. -/
lemma still (h : Shadows [] joined network) : ∃ events, Shadows [] joined (network.run events) :=
  ⟨[], h⟩

variable [PostcardReader]

lemma start (h : Shadows [] joined network) :
    ∃ events, Shadows [] (joined.act .start) (network.run events) := by
  show ∃ events, Shadows [] (joined.call PeerConnection.start) _
  unfold Joined.call
  cases hfailed : joined.left.failed with
  | true =>
    have hrefused := exec_ensureOpen_failed (fun _ => do
      if (← get).started then throw (invalid "replication connection already started")
      modify fun c => { c with started := true }
      remembered do
        let connection ← get
        send [connection.session.hello]) joined.left hfailed
    have hsame : (PeerConnection.start.exec joined.left).2 = joined.left := hrefused
    rw [hsame]
    exact h.still
  | false =>
    unfold PeerConnection.start
    rw [exec_ensureOpen _ _ hfailed, exec_bind_of_ok (exec_get _)]
    cases hstarted : joined.left.started with
    | true =>
      rw [if_pos rfl]
      exact h.still
    | false =>
      rw [if_neg (by decide)]
      -- the session greets, however much of the greeting the link takes
      refine ⟨[.left .greet], ?_⟩
      have hgreet : network.act .greet = ⟨⟨joined.left.session, true,
          network.left.outbox ++ [joined.left.session.hello]⟩, network.right⟩ := by
        have hnot : network.left.greeted = false := h.leftGreeted.trans hstarted
        unfold Network.act Endpoint.greet
        rw [hnot, h.left]
        rfl
      obtain ⟨result, transport, hsent, hsends⟩ :=
        exec_send { joined.left with started := true } [joined.left.session.hello]
      show Shadows [] { joined with left := ((remembered do
        let connection ← get
        send [connection.session.hello]).exec { joined.left with started := true }).2 }
        (network.act .greet)
      have hrun : (remembered (R := R) (T := Link) do
          let connection ← get
          send [connection.session.hello]).exec { joined.left with started := true }
          = (result, { joined.left with
            started := true
            transport := transport
            failed := !result.isOk }) := by
        unfold remembered
        rw [exec_of, exec_bind_of_ok (exec_get _), hsent]
      rw [hrun, hgreet]
      exact
        { left := rfl
          right := h.right
          leftGreeted := rfl
          rightGreeted := h.rightGreeted
          toLeft := fun _ => h.toLeft hfailed
          toRight := fun hother => by
            refine (hsends _ _ ((h.toRight hother).mono fun _ => hfailed)).mono fun hok => ?_
            cases result with
            | ok => rfl
            | error error => cases hok }

lemma tick (h : Shadows [] joined network) :
    ∃ events, Shadows [] (joined.act .tick) (network.run events) := by
  show ∃ events, Shadows [] (joined.call PeerConnection.tick) _
  unfold Joined.call PeerConnection.tick
  by_cases hready : joined.left.failed = false ∧ joined.left.started = true
  · rw [exec_ensureStarted _ _ hready.1 hready.2]
    obtain ⟨result, transport, hrun, hsends⟩ := exec_replying joined.left Session.tick
    refine ⟨[.left .tick], ?_⟩
    have hact : network.act .tick = { network with left := network.left.call Session.tick } := by
      unfold Network.act
      rw [h.leftGreeted, hready.2]
      rfl
    show Shadows [] _ (network.act .tick)
    unfold remembered
    rw [exec_of, hrun, hact]
    exact h.replying hready.1 Session.tick hsends
  · rw [exec_ensureStarted_refused _ _ hready]
    exact h.still

lemma finish (h : Shadows [] joined network) :
    ∃ events, Shadows [] (joined.act .finish) (network.run events) := by
  show ∃ events, Shadows [] (joined.call PeerConnection.finish) _
  unfold Joined.call PeerConnection.finish
  by_cases hready : joined.left.failed = false ∧ joined.left.started = true
  · -- the end of the stream fails the connection in either case
    rw [exec_ensureStarted _ _ hready.1 hready.2, exec_bind_of_ok (exec_modify _ _),
      exec_bind_of_ok (exec_get _), exec_lift]
    exact Shadows.still (h.fail rfl rfl rfl rfl)
  · rw [exec_ensureStarted_refused _ _ hready]
    exact h.still

/-- A call with bytes of another peer's label. -/
lemma stray (h : Shadows [] joined network) {peer : String} (bytes : Bytes) :
    ∃ events, Shadows [] (joined.act (.stray peer bytes)) (network.run events) := by
  show ∃ events, Shadows []
    (if peer ≠ joined.left.peer then joined.call (PeerConnection.receive peer bytes) else joined) _
  split
  · rename_i hother
    unfold Joined.call PeerConnection.receive
    by_cases hready : joined.left.failed = false ∧ joined.left.started = true
    · rw [exec_ensureStarted _ _ hready.1 hready.2]
      have hrun : (PeerConnection.process peer bytes).exec joined.left
          = (.error (invalid "input belongs to a different replication peer"), joined.left) := by
        unfold PeerConnection.process
        rw [exec_bind_of_ok (exec_get _), if_pos hother]
        rfl
      unfold remembered
      rw [exec_of, hrun]
      exact Shadows.still (h.fail rfl rfl rfl rfl)
    · rw [exec_ensureStarted_refused _ _ hready]
      exact h.still
  · exact h.still

/-- A fragment of the peer's stream: the messages that it completes are received. -/
lemma deliver (h : Shadows [] joined network) (hround : ∀ message ∈ network.right.outbox,
    PostcardReader.takeMessage message.payload = .ok (message, [])) (count : ℕ) :
    ∃ events, Shadows [] (joined.act (.deliver count)) (network.run events) := by
  show ∃ events, Shadows [] (if joined.left.started then (joined.taken count).call
    (PeerConnection.receive joined.left.peer (joined.right.transport.sent.take count))
    else joined) _
  split
  case isFalse => exact h.still
  case isTrue hstarted =>
  unfold PeerConnection.receive
  show ∃ events, Shadows [] ⟨((ensureStarted >>= fun _ => remembered (PeerConnection.process
    joined.left.peer (joined.right.transport.sent.take count))).exec joined.left).2,
    (joined.taken count).right⟩ _
  cases hfailed : joined.left.failed with
  | true =>
    have hrefused : ¬ (joined.left.failed = false ∧ joined.left.started = true) := by
      simp [hfailed]
    rw [exec_ensureStarted_refused _ _ hrefused]
    -- the bytes are lost, and nobody waits for them
    refine ⟨[], h.left, h.right, h.leftGreeted, h.rightGreeted, fun hopen => ?_, h.toRight⟩
    rw [show joined.left.failed = true from hfailed] at hopen
    cases hopen
  | false =>
    rw [exec_ensureStarted _ _ hfailed hstarted]
    unfold remembered
    rw [exec_of]
    unfold PeerConnection.process
    rw [exec_bind_of_ok (exec_get _), if_neg (fun hne => hne rfl)]
    obtain ⟨later, hlater, hcarries⟩ := h.toLeft hfailed
    rw [List.nil_append] at hlater
    cases hpush : (FrameDecoder.push (joined.right.transport.sent.take count)).exec
        joined.left.decoder with
    | mk answer decoder =>
    have hcall : (onDecoder (R := R) (T := Link) (FrameDecoder.push
        (joined.right.transport.sent.take count))).exec joined.left
        = (answer, { joined.left with decoder := decoder }) := by
      unfold onDecoder
      rw [exec_zoom, hpush]
    cases answer with
    | error error =>
      -- a decoder that fails hands out nothing
      rw [exec_bind_of_error hcall]
      refine ⟨[], h.left, h.right, h.leftGreeted, h.rightGreeted, fun hopen => ?_, fun hother => ?_⟩
      · cases hopen
      · exact (h.toRight hother).mono fun hfalse => by cases hfalse
    | ok out =>
      rw [exec_bind_of_ok hcall]
      obtain ⟨out', decoder', rest, hpush', hout, hrest⟩ :=
        hcarries.push (hlater ▸ hround) (FrameDecoder.length_le_of_push hpush)
      rw [hpush] at hpush'
      cases hpush'
      -- what the fragment completes is pending until the sessions receive it
      have hpending : Shadows out
          ⟨{ joined.left with decoder := decoder }, (joined.taken count).right⟩ network :=
        { left := h.left
          right := h.right
          leftGreeted := h.leftGreeted
          rightGreeted := h.rightGreeted
          toLeft := fun _ => ⟨rest, hlater.trans hout, hrest⟩
          toRight := h.toRight }
      obtain ⟨events, result, c, hrun, -, hlast⟩ := hpending.processAll hfailed hstarted
      rw [hrun]
      exact ⟨events, hlast⟩

/-- Whatever happens at the left end happens to the sessions. -/
lemma act (h : Shadows [] joined network) (hround : ∀ message ∈ network.right.outbox,
    PostcardReader.takeMessage message.payload = .ok (message, [])) (action : Action R) :
    ∃ events, Shadows [] (joined.act action) (network.run events) := by
  cases action with
  | start => exact h.start
  | deliver count => exact h.deliver hround count
  | stray peer bytes => exact h.stray bytes
  | tick => exact h.tick
  | finish => exact h.finish
  | limit capacity =>
    exact ⟨[], h.left, h.right, h.leftGreeted, h.rightGreeted, h.toLeft, h.toRight⟩
  | change f =>
    refine ⟨[.left (.change f)], ?_, h.right, h.leftGreeted, h.rightGreeted, h.toLeft, h.toRight⟩
    show { network.left.session with replica := f network.left.session.replica } = _
    rw [h.left]
    rfl

end Shadows

/-! ## The joined connections -/

section Run

variable [ReplicationStorage R] [ReplicationStorage S] [PostcardReader]

omit [PostcardReader] in
lemma run_swap (network : Network R S) (events : List (Network.Event S R)) :
    ∃ mirrored, (network.swap.run events).swap = network.run mirrored := by
  induction events generalizing network with
  | nil => exact ⟨[], rfl⟩
  | cons event events ih =>
    cases event with
    | left action =>
      obtain ⟨mirrored, hmirrored⟩ := ih (network.step (.right action))
      exact ⟨.right action :: mirrored, hmirrored⟩
    | right action =>
      obtain ⟨mirrored, hmirrored⟩ := ih (network.step (.left action))
      exact ⟨.left action :: mirrored, hmirrored⟩

/-- Whatever happens to the connections happens to the sessions. -/
lemma Shadows.run {left : R} {right : S}
    (hround : ∀ events, ∀ message ∈ ((Network.new left right).run events).left.outbox
        ++ ((Network.new left right).run events).right.outbox,
      PostcardReader.takeMessage message.payload = .ok (message, []))
    (leftPeer rightPeer : String) (events : List (Event R S)) :
    ∃ shadow, Shadows [] ((Joined.new left right leftPeer rightPeer).run events)
      ((Network.new left right).run shadow) := by
  induction events using List.reverseRecOn with
  | nil => exact ⟨[], Shadows.of_new left right leftPeer rightPeer⟩
  | append_singleton events event ih =>
    obtain ⟨shadow, hshadow⟩ := ih
    have hlast : (Joined.new left right leftPeer rightPeer).run (events ++ [event])
        = ((Joined.new left right leftPeer rightPeer).run events).step event := by
      unfold Joined.run
      rw [List.foldl_append]
      rfl
    have hrun : ∀ more, (Network.new left right).run (shadow ++ more)
        = ((Network.new left right).run shadow).run more := by
      intro more
      unfold Network.run
      rw [List.foldl_append]
    rw [hlast]
    cases event with
    | left action =>
      obtain ⟨more, hmore⟩ := hshadow.act (fun message hmessage =>
        hround shadow message (List.mem_append_right _ hmessage)) action
      refine ⟨shadow ++ more, ?_⟩
      rw [hrun]
      exact hmore
    -- the right end is the left end of the swapped network
    | right action =>
      obtain ⟨more, hmore⟩ := hshadow.swap.act (fun message hmessage =>
        hround shadow message (List.mem_append_left _ hmessage)) action
      obtain ⟨mirrored, hmirrored⟩ := run_swap ((Network.new left right).run shadow) more
      refine ⟨shadow ++ mirrored, ?_⟩
      rw [hrun, ← hmirrored]
      exact hmore.swap

/-- The bytes on their way to a connection that has not failed carry what its peer has sent and it
has not taken in. The next fragment, whatever it is, completes the first of these messages. -/
def Joined.Continues (joined : Joined R S) (network : Network R S) : Prop :=
  joined.left.failed = false →
    Carries (joined.right.failed = false)
        (joined.left.decoder.bytes ++ joined.right.transport.sent) network.right.outbox
      ∧ ∀ count, (joined.right.transport.sent.take count).length ≤ maxFrameBytes →
        ∃ out decoder, (FrameDecoder.push (joined.right.transport.sent.take count)).exec
            joined.left.decoder = (.ok out, decoder) ∧ out <+: network.right.outbox

omit [ReplicationStorage R] [ReplicationStorage S] in
lemma Shadows.continues {joined : Joined R S} {network : Network R S}
    (h : Shadows [] joined network) (hround : ∀ message ∈ network.right.outbox,
      PostcardReader.takeMessage message.payload = .ok (message, [])) :
    joined.Continues network := by
  intro hopen
  obtain ⟨later, hlater, hcarries⟩ := h.toLeft hopen
  rw [List.nil_append] at hlater
  subst hlater
  refine ⟨hcarries, fun count hcount => ?_⟩
  obtain ⟨out, decoder, rest, hpush, hout, -⟩ := hcarries.push hround hcount
  exact ⟨out, decoder, hpush, hout ▸ List.prefix_append out rest⟩

/-- Every run of two connections over links that keep the order of bytes, however the streams are
cut into fragments, wherever a link breaks in a frame, and whatever stray input, ends of stream,
ticks and changes of the storages come in between, is a run of two sessions that exchange whole
messages: the sessions are in the same states, and no message on its way is doubled, reordered or
made up, nor lost as long as its sender has not failed. -/
theorem bytes_refine_messages {left : R} {right : S}
    (hround : ∀ events, ∀ message ∈ ((Network.new left right).run events).left.outbox
        ++ ((Network.new left right).run events).right.outbox,
      PostcardReader.takeMessage message.payload = .ok (message, []))
    (leftPeer rightPeer : String) (events : List (Event R S)) :
    let joined := (Joined.new left right leftPeer rightPeer).run events
    ∃ shadow, let network := (Network.new left right).run shadow
      joined.left.session = network.left.session ∧ joined.right.session = network.right.session
        ∧ joined.Continues network ∧ joined.swap.Continues network.swap := by
  obtain ⟨shadow, hshadow⟩ := Shadows.run hround leftPeer rightPeer events
  refine ⟨shadow, hshadow.left.symm, hshadow.right.symm,
    hshadow.continues fun message hmessage => ?_, hshadow.swap.continues fun message hmessage => ?_⟩
  · exact hround shadow message (List.mem_append_right _ hmessage)
  · exact hround shadow message (List.mem_append_left _ hmessage)

end Run
end EditChain.Sync.Stream

/-! ## Two connections that greet -/

namespace EditChain.Sync.Stream

open Core Fallible

section Witness

local instance revokedSchema : Schema OpId := messageSchema
local instance revokedDigests : Blake3 := messageDigests

/-- A storage whose authorization is revoked. -/
structure Revoked where

/-- What every call of the storage returns. -/
def revoked : IoError := ⟨.other, "authorization is revoked"⟩

local instance revokedStorage : ReplicationStorage Revoked where
  namespaceOf _ := "chain"
  ensureScope := throw revoked
  snapshot := throw revoked
  receivingSnapshot := throw revoked
  ingestRecords _ := throw revoked
  blobHashes _ _ := throw revoked
  readBlob _ _ _ := throw revoked
  ingestBlob _ _ _ := throw revoked

/-- The hello of the chain. -/
def chainHello : Message := .hello peerVersion 1 "chain"

/-- The serialization library on the hello of the chain. -/
@[reducible] def helloReader : PostcardReader where
  takeMessage bytes :=
    if chainHello.payload <+: bytes then .ok (chainHello, bytes.drop chainHello.payload.length)
    else .error ⟨"unexpected end of input"⟩

lemma revoked_receive (session : Session Revoked) (message : Message) :
    repliesOf ((Session.receive message).exec session).1 = [] := by
  have hprocess : (Session.process message).exec session = (.error revoked, session) := rfl
  unfold Session.receive Session.ensureOpen
  rw [exec_bind]
  cases hfailed : session.failed with
  | true =>
    rw [exec_bind_of_ok (exec_get _), if_pos hfailed]
    rfl
  | false =>
    rw [exec_bind_of_ok (exec_get _), if_neg (by simp [hfailed])]
    show repliesOf ((Session.guarded (Session.process message)).exec session).1 = []
    unfold Session.guarded
    rw [exec_of, hprocess]
    rfl

lemma revoked_tick (session : Session Revoked) :
    repliesOf ((Session.tick.exec session).1) = [] := by
  have hround : Session.startRound.exec session = (.error revoked, session) := rfl
  unfold Session.tick Session.ensureOpen
  rw [exec_bind]
  cases hfailed : session.failed with
  | true =>
    rw [exec_bind_of_ok (exec_get _), if_pos hfailed]
    rfl
  | false =>
    rw [exec_bind_of_ok (exec_get _), if_neg (by simp [hfailed])]
    show repliesOf ((Session.guarded Session.startRound).exec session).1 = []
    unfold Session.guarded
    rw [exec_of, hround]
    rfl

/-- Both sides send their hello and nothing else. -/
def Greets (network : Network Revoked Revoked) : Prop :=
  ∀ message ∈ network.left.outbox ++ network.right.outbox, message = chainHello

lemma Greets.swap {network : Network Revoked Revoked} (h : Greets network) :
    Greets network.swap := by
  intro message hmessage
  exact h message (List.mem_append.mpr (List.mem_append.mp hmessage).symm)

lemma Greets.act {network : Network Revoked Revoked} (h : Greets network)
    (action : Sync.Action Revoked) : Greets (network.act action) := by
  unfold Greets at h ⊢
  cases action with
  | greet =>
    show ∀ message ∈ network.left.greet.outbox ++ network.right.outbox, _
    unfold Endpoint.greet
    split
    · exact h
    · intro message hmessage
      simp only [List.mem_append, List.mem_singleton] at hmessage h
      obtain (hleft | hhello) | hright := hmessage
      · exact h message (.inl hleft)
      · exact hhello
      · exact h message (.inr hright)
  | deliver =>
    cases hgreeted : network.left.greeted with
    | false =>
      have hact : network.act .deliver = network := by
        unfold Network.act
        rw [hgreeted]
      rw [hact]
      exact h
    | true =>
      cases hrest : network.right.outbox with
      | nil =>
        have hact : network.act .deliver = network := by
          unfold Network.act
          rw [hgreeted, hrest]
        rw [hact]
        exact h
      | cons message rest =>
        have hact : network.act .deliver = ⟨network.left.call (Session.receive message),
            { network.right with outbox := rest }⟩ := by
          unfold Network.act
          rw [hgreeted, hrest]
        have hsame : (network.left.call (Session.receive message)).outbox
            = network.left.outbox := by
          show network.left.outbox ++ repliesOf _ = _
          rw [revoked_receive, List.append_nil]
        intro other hother
        rw [hact, hsame] at hother
        rw [hrest] at h
        apply h other
        simp only [List.mem_append, List.mem_cons] at hother ⊢
        exact hother.imp_right Or.inr
  | tick =>
    cases hgreeted : network.left.greeted with
    | false =>
      have hact : network.act .tick = network := by
        unfold Network.act
        rw [hgreeted]
        rfl
      rw [hact]
      exact h
    | true =>
      have hact : network.act .tick = ⟨network.left.call Session.tick, network.right⟩ := by
        unfold Network.act
        rw [hgreeted]
        rfl
      have hsame : (network.left.call Session.tick).outbox = network.left.outbox := by
        show network.left.outbox ++ repliesOf _ = _
        rw [revoked_tick, List.append_nil]
      rw [hact, hsame]
      exact h
  | change f => exact h

lemma Greets.run (events : List (Network.Event Revoked Revoked)) :
    Greets ((Network.new {} {}).run events) := by
  induction events using List.reverseRecOn with
  | nil => exact fun message hmessage => by cases hmessage
  | append_singleton events event ih =>
    unfold Network.run at ih ⊢
    rw [List.foldl_append]
    cases event with
    | left action => exact ih.act action
    | right action => exact (ih.swap.act action).swap

/-- Both connections start, and the left one is handed the hello of the other in two fragments. -/
def greetingEvents : List (Event Revoked Revoked) :=
  [.left .start, .right .start, .left (.deliver 3), .left (.deliver 100)]

local instance greetingReader : PostcardReader := helloReader

/-- The link of the right connection breaks in its hello, of which the left one gets 7 bytes. -/
def brokenEvents : List (Event Revoked Revoked) :=
  [.left .start, .right (.limit (some 7)), .right .start, .left (.deliver 3), .left (.deliver 100)]

/-- The left session has received the hello and refused it, as one of two sessions does that
exchange whole messages. Where the link breaks in the hello, the right connection has failed, and
the bytes that have arrived are those of a beginning of it. -/
theorem bytes_refine_messages_greeting :
    (∃ shadow, ((Network.new (R := Revoked) (S := Revoked) {} {}).run shadow).left.session.failed
      = true)
    ∧ ∃ shadow,
      let joined := (Joined.new (R := Revoked) (S := Revoked) {} {} "left" "right").run brokenEvents
      joined.right.failed = true ∧ joined.left.failed = false ∧ joined.left.decoder.bytes.length = 7
        ∧ joined.Continues ((Network.new {} {}).run shadow) := by
  have hround : ∀ events, ∀ message ∈ ((Network.new (R := Revoked) (S := Revoked) {} {}).run
      events).left.outbox ++ ((Network.new {} {}).run events).right.outbox,
      helloReader.takeMessage message.payload = .ok (message, []) := by
    intro events message hmessage
    rw [Greets.run events message hmessage]
    decide +kernel
  refine ⟨?_, ?_⟩
  · obtain ⟨shadow, hleft, -⟩ := bytes_refine_messages hround "left" "right" greetingEvents
    refine ⟨shadow, ?_⟩
    rw [← hleft]
    decide +kernel
  · obtain ⟨shadow, -, -, hcontinues, -⟩ :=
      bytes_refine_messages hround "left" "right" brokenEvents
    exact ⟨shadow, by decide +kernel, by decide +kernel, by decide +kernel, hcontinues⟩

end Witness
end EditChain.Sync.Stream
