import EditChain.Sync.Decoder

/-!
# Connections over a byte stream

The peer connection as it meets its transport: it is handed pieces of the peer's byte stream, cut
anywhere, and writes whole frames, of which an interrupted transport may deliver a part. Two such
connections are joined by links that keep the order of bytes and may break at any of them.
-/

namespace EditChain.Sync.Stream

open Core Fallible

variable {Op : Type} [Schema Op] [Blake3] [PostcardReader]

/-- Caller-owned delivery of ordered bytes to an already authorized peer. -/
class Transport (T : Type) where
  /-- Send one complete encoded frame to the supplied opaque peer identifier. -/
  send : String → Bytes → Fallible IoError T Unit

/-- One caller-selected peer, storage policy and transport connection. -/
structure PeerConnection (R T : Type) where
  peer : String
  session : Session R
  transport : T
  decoder : FrameDecoder := {}
  started : Bool := false
  failed : Bool := false

namespace PeerConnection

variable {R T : Type} [ReplicationStorage R] [Transport T]

omit [ReplicationStorage R] [Transport T] in
/-- Bind an authorized peer without reading storage or sending any bytes. -/
def new (peer : String) (storage : R) (transport : T) : PeerConnection R T :=
  { peer := peer, session := .new storage, transport := transport }

/-! ## Parts of a connection -/

/-- Call the session. -/
def onSession {α : Type} (m : Fallible IoError (Session R) α) :
    Fallible IoError (PeerConnection R T) α :=
  zoom PeerConnection.session (fun session c => { c with session := session }) m

/-- Call the transport. -/
def onTransport {α : Type} (m : Fallible IoError T α) : Fallible IoError (PeerConnection R T) α :=
  zoom PeerConnection.transport (fun transport c => { c with transport := transport }) m

/-- Call the decoder. -/
def onDecoder {α : Type} (m : Fallible IoError FrameDecoder α) :
    Fallible IoError (PeerConnection R T) α :=
  zoom PeerConnection.decoder (fun decoder c => { c with decoder := decoder }) m

/-- `self.failed = result.is_err()`. -/
def remembered {α : Type} (m : Fallible IoError (PeerConnection R T) α) :
    Fallible IoError (PeerConnection R T) α :=
  of fun c => ((m.exec c).1, { (m.exec c).2 with failed := !(m.exec c).1.isOk })

/-- A failed connection stays failed. -/
def ensureOpen : Fallible IoError (PeerConnection R T) Unit := do
  if (← get).failed then throw (invalid "failed replication connection; reconnect")

/-- A connection that has not failed and has sent its hello. -/
def ensureStarted : Fallible IoError (PeerConnection R T) Unit := do
  ensureOpen
  if ¬ (← get).started then throw (invalid "replication connection has not started")

/-! ## Calls -/

/-- Encode a message and hand it to the transport. -/
def sendMessage (message : Message) : Fallible IoError (PeerConnection R T) Unit := do
  let frame ← lift (encodeMessage message)
  let connection ← get
  onTransport (Transport.send connection.peer frame)

/-- Send all messages of a call. -/
def send (messages : List Message) : Fallible IoError (PeerConnection R T) Unit :=
  forM messages sendMessage

/-- Send protocol negotiation once, after host authentication is complete. -/
def start : Fallible IoError (PeerConnection R T) Unit := do
  ensureOpen
  if (← get).started then throw (invalid "replication connection already started")
  modify fun c => { c with started := true }
  remembered do
    let connection ← get
    send [connection.session.hello]

/-- Process one decoded message. -/
def processMessage (message : Message) : Fallible IoError (PeerConnection R T) Unit := do
  let replies ← onSession (Session.receive message)
  send replies

/-- Process the messages that a fragment completes. -/
def process (peer : String) (bytes : Bytes) : Fallible IoError (PeerConnection R T) Unit := do
  let connection ← get
  if peer ≠ connection.peer then
    throw (invalid "input belongs to a different replication peer")
  let messages ← onDecoder (FrameDecoder.push bytes)
  forM messages processMessage

/-- Process a bounded transport fragment from this connection's peer. -/
def receive (peer : String) (bytes : Bytes) : Fallible IoError (PeerConnection R T) Unit := do
  ensureStarted
  remembered (process peer bytes)

/-- Schedule another catch-up round, including retries of missing blobs. -/
def tick : Fallible IoError (PeerConnection R T) Unit := do
  ensureStarted
  remembered do
    let messages ← onSession Session.tick
    send messages

/-- Report transport EOF and reject a truncated frame. -/
def finish : Fallible IoError (PeerConnection R T) Unit := do
  ensureStarted
  modify fun c => { c with failed := true }
  let connection ← get
  lift connection.decoder.finish

end PeerConnection

/-! ## Links -/

/-- What a link has accepted and not delivered, and how many bytes it accepts before it breaks. -/
structure Link where
  sent : Bytes := []
  capacity : Option ℕ := none

namespace Link

/-- How many bytes of a frame the link accepts. -/
def room (link : Link) (frame : Bytes) : ℕ :=
  match link.capacity with
  | none => frame.length
  | some capacity => min capacity frame.length

/-- The link after it has accepted what it can of a frame. -/
def accept (link : Link) (frame : Bytes) : Link where
  sent := link.sent ++ frame.take (link.room frame)
  capacity := link.capacity.map fun capacity => capacity - frame.length

end Link

/-- A link that breaks in a frame reports it. -/
instance : Transport Link where
  send _ frame := of fun link =>
    (if link.room frame = frame.length then .ok () else .error ⟨.other, "connection reset"⟩,
      link.accept frame)

/-! ## Two joined connections -/

/-- Two connections; what one sends arrives at the other. -/
structure Joined (R S : Type) where
  left : PeerConnection R Link
  right : PeerConnection S Link

/-- What can happen at one end. -/
inductive Action (R : Type) where
  | start
  /-- The transport hands over the next so many bytes that the other end has sent. -/
  | deliver (count : ℕ)
  /-- The host hands over bytes under another peer's label. -/
  | stray (peer : String) (bytes : Bytes)
  | tick
  | finish
  /-- The transport decides how much more it accepts. -/
  | limit (capacity : Option ℕ)
  /-- The storage changes on its own: local appends, or a failure that comes or goes. -/
  | change (f : R → R)

/-- Something happens at one of the two ends. -/
inductive Event (R S : Type) where
  | left (action : Action R)
  | right (action : Action S)

namespace Joined

variable {R S : Type}

/-- Two new connections with nothing in flight. -/
def new (left : R) (right : S) (leftPeer rightPeer : String) : Joined R S :=
  ⟨.new leftPeer left {}, .new rightPeer right {}⟩

/-- The same connections, seen from the other side. -/
def swap (joined : Joined R S) : Joined S R := ⟨joined.right, joined.left⟩

/-- Make a call at the left end. -/
def call (joined : Joined R S) (m : Fallible IoError (PeerConnection R Link) Unit) : Joined R S :=
  { joined with left := (m.exec joined.left).2 }

/-- The first bytes of the right end's link are taken off it. -/
def taken (joined : Joined R S) (count : ℕ) : Joined R S :=
  { joined with right := { joined.right with
    transport := { joined.right.transport with
      sent := joined.right.transport.sent.drop count } } }

/-- Something happens at the left end. Bytes are delivered to connections that have started. -/
def act [ReplicationStorage R] (joined : Joined R S) : Action R → Joined R S
  | .start => joined.call PeerConnection.start
  | .deliver count =>
    if joined.left.started then
      (joined.taken count).call
        (PeerConnection.receive joined.left.peer (joined.right.transport.sent.take count))
    else joined
  | .stray peer bytes =>
    if peer ≠ joined.left.peer then joined.call (PeerConnection.receive peer bytes) else joined
  | .tick => joined.call PeerConnection.tick
  | .finish => joined.call PeerConnection.finish
  | .limit capacity =>
    { joined with left := { joined.left with
      transport := { joined.left.transport with capacity := capacity } } }
  | .change f =>
    { joined with left := { joined.left with
      session := { joined.left.session with replica := f joined.left.session.replica } } }

variable [ReplicationStorage R] [ReplicationStorage S]

/-- One event. -/
def step (joined : Joined R S) : Event R S → Joined R S
  | .left action => joined.act action
  | .right action => (joined.swap.act action).swap

/-- A sequence of events. -/
def run (events : List (Event R S)) (joined : Joined R S) : Joined R S :=
  events.foldl step joined

end Joined
end EditChain.Sync.Stream
