import EditChain.Lib.Postcard
import EditChain.Sync.Peer

/-!
# Frames, connections and two joined peers

Messages as length-prefixed frames, the two connections that carry a session over a transport
(`PeerConnection` over a caller's transport, `SecurePeer` over TLS), and two endpoints joined by
channels that lose and reorder nothing. The transport itself is outside of the model: a connection
is given the messages that arrive in one call, and whether a write succeeds is up to the transport.
-/

namespace EditChain.Sync

open Core Fallible

variable {Op : Type} [Schema Op] [Blake3]

/-! ## Frames -/

/-- Largest encoded peer message. -/
def maxFrameBytes : ℕ := 128 * 1024

/-- Most messages that a secure peer takes in during one turn. -/
def maxTurnMessages : ℕ := 512

/-- The 32 bytes of an identity or a digest. -/
def digestBytes (digest : Digest) : Bytes := (ByteString.leBytes 32 digest.toNat).reverse

/-- The bytes of a record key. -/
def RecordKey.payload (key : RecordKey) : Bytes := digestBytes key.id ++ digestBytes key.digest

open Postcard in
/-- `postcard::to_stdvec` of a message: the number of its variant, and its fields in order. Integers
and lengths are variable-length, and options have a byte in front. -/
def Message.payload : Message → Bytes
  | .hello version encoding space => u32 0 ++ u16 version ++ u16 encoding ++ string space
  | .inventory after => u32 1 ++ option RecordKey.payload after
  | .page offset total records more =>
    u32 2 ++ u64 offset ++ u64 total ++ seq RecordKey.payload records ++ bool more
  | .need record blob offset => u32 3 ++ record.payload ++ option digestBytes blob ++ u32 offset
  | .chunk record blob offset total bytes =>
    u32 4 ++ record.payload ++ option digestBytes blob ++ u32 offset ++ u32 total
      ++ seq (fun byte => [byte]) bytes
  | .missing record blob => u32 5 ++ record.payload ++ option digestBytes blob
  | .ack record blob => u32 6 ++ record.payload ++ option digestBytes blob
  | .checked position => u32 7 ++ u64 position

/-- Encode one bounded, length-prefixed peer frame. -/
def encodeMessage (message : Message) : Except IoError Bytes := do
  if maxFrameBytes < message.payload.length then throw (invalid "peer frame exceeds limit")
  if 2 ^ 32 ≤ message.payload.length then throw conversionError
  return ByteString.leBytes 4 message.payload.length ++ message.payload

/-! ## Connections -/

/-- Ordered delivery of bytes to the peer of a connection. For a secure peer this is the TLS
session with its output buffer. -/
class Transport (T : Type) where
  send : Bytes → Fallible IoError T Unit

/-- What made a connection fail. -/
inductive Failure where
  | closed (error : IoError)
  | session (error : IoError)
  | encoding (error : IoError)
  | transport (error : IoError)
  /-- `invalid("too many peer messages in one bridge turn")` -/
  | tooMany

/-- The failures that come from a limit of the transport. -/
def Failure.IsLimit : Failure → Prop
  | .encoding _ | .tooMany => True
  | .closed _ | .session _ | .transport _ => False

/-- A session, the transport that carries it, and the messages taken in during the current turn. -/
structure Connection (R T : Type) where
  session : Session R
  transport : T
  /-- The hello has been sent; for a secure peer, its device is authenticated. -/
  started : Bool := false
  failed : Bool := false
  messages : ℕ := 0

namespace Connection

variable {R T : Type} [ReplicationStorage R] [Transport T]

/-- Call the session. -/
def onSession {α : Type} (m : Fallible IoError (Session R) α) :
    Fallible Failure (Connection R T) α :=
  of fun c => ((m.exec c.session).1.mapError .session, { c with session := (m.exec c.session).2 })

/-- Call the transport. -/
def onTransport {α : Type} (m : Fallible IoError T α) : Fallible Failure (Connection R T) α :=
  of fun c =>
    ((m.exec c.transport).1.mapError .transport, { c with transport := (m.exec c.transport).2 })

/-- Run a call and remember whether it failed. -/
def remembered {α : Type} (m : Fallible Failure (Connection R T) α) :
    Fallible Failure (Connection R T) α :=
  of fun c => ((m.exec c).1, { (m.exec c).2 with failed := !(m.exec c).1.isOk })

/-- Encode a message and hand it to the transport. -/
def sendMessage (message : Message) : Fallible Failure (Connection R T) Unit := do
  let frame ← lift ((encodeMessage message).mapError .encoding)
  onTransport (Transport.send frame)

/-- Send all messages of a call. -/
def send (messages : List Message) : Fallible Failure (Connection R T) Unit :=
  forM messages sendMessage

/-- A failed connection stays failed. -/
def ensureOpen (text : String) : Fallible Failure (Connection R T) Unit := do
  if (← get).failed then throw (.closed (invalid text))

end Connection

namespace PeerConnection

open Connection

variable {R T : Type} [ReplicationStorage R] [Transport T]

/-- A connection that has not failed and has sent its hello. -/
def ensureStarted : Fallible Failure (Connection R T) Unit := do
  Connection.ensureOpen "failed replication connection; reconnect"
  if ¬ (← get).started then
    throw (.closed (invalid "replication connection has not started"))

/-- Send protocol negotiation once, after host authentication is complete. -/
def start : Fallible Failure (Connection R T) Unit := do
  Connection.ensureOpen "failed replication connection; reconnect"
  if (← get).started then
    throw (.closed (invalid "replication connection already started"))
  modify fun c => { c with started := true }
  remembered do
    let c ← get
    send [c.session.hello]

/-- Process the messages of a transport fragment from this connection's peer. -/
def receive (messages : List Message) : Fallible Failure (Connection R T) Unit := do
  ensureStarted
  remembered <| forM messages fun message => do
    let replies ← onSession (Session.receive message)
    send replies

/-- Schedule another catch-up round. -/
def tick : Fallible Failure (Connection R T) Unit := do
  ensureStarted
  remembered do
    let replies ← onSession Session.tick
    send replies

end PeerConnection

namespace SecurePeer

open Connection

variable {R T : Type} [ReplicationStorage R] [Transport T]

/-- Send the hello once the handshake has authenticated an approved device. -/
def authenticate (handshaken : Bool) : Fallible Failure (Connection R T) Unit := do
  if ¬ (← get).started ∧ handshaken then
    modify fun c => { c with started := true }
    sendMessage (← get).session.hello

/-- Take in the decoded messages of a turn, at most `maxTurnMessages` of them. -/
def plaintext (messages : List Message) : Fallible Failure (Connection R T) Unit :=
  forM messages fun message => do
    if ¬ (← get).started then
      throw (.closed (invalid "application bytes before device authentication"))
    modify fun c => { c with messages := saturatingAdd c.messages 1 }
    if maxTurnMessages < (← get).messages then throw .tooMany
    let replies ← onSession (Session.receive message)
    send replies

/-- Take in what arrived, and start a round when asked to. -/
def processTurn (handshaken : Bool) (messages : List Message) (tick : Bool) :
    Fallible Failure (Connection R T) Unit := do
  modify fun c => { c with messages := 0 }
  authenticate handshaken
  plaintext messages
  if tick ∧ (← get).started then
    let replies ← onSession Session.tick
    send replies

/-- One turn: a failure permanently invalidates the connection. -/
def turn (handshaken : Bool) (messages : List Message) (tick : Bool) :
    Fallible Failure (Connection R T) Unit := do
  Connection.ensureOpen "peer connection is closed"
  remembered (processTurn handshaken messages tick)

end SecurePeer

/-! ## Two joined endpoints -/

/-- A session and the messages it has sent that the other end has not received. -/
structure Endpoint (R : Type) where
  session : Session R
  /-- The hello has been sent. -/
  greeted : Bool := false
  outbox : List Message := []

/-- Two endpoints; each receives from the other's outbox. -/
structure Network (R S : Type) where
  left : Endpoint R
  right : Endpoint S

/-- What an endpoint can do next. -/
inductive Action (R : Type) where
  /-- Send the hello. -/
  | greet
  /-- Receive the next message. -/
  | deliver
  | tick
  /-- The storage changes on its own: local appends, or a failure that comes or goes. -/
  | change (f : R → R)

namespace Endpoint

variable {R : Type} [ReplicationStorage R]

/-- Make a call and send its replies. -/
def call (m : Fallible IoError (Session R) (List Message)) (endpoint : Endpoint R) : Endpoint R :=
  let run := m.exec endpoint.session
  { endpoint with session := run.2, outbox := endpoint.outbox ++ repliesOf run.1 }

/-- Send the hello, once. -/
def greet (endpoint : Endpoint R) : Endpoint R :=
  if endpoint.greeted then endpoint
  else { endpoint with
    greeted := true
    outbox := endpoint.outbox ++ [endpoint.session.hello] }

/-- The storage changes. -/
def change (f : R → R) (endpoint : Endpoint R) : Endpoint R :=
  { endpoint with session := { endpoint.session with replica := f endpoint.session.replica } }

end Endpoint

namespace Network

variable {R S : Type}

/-- Two fresh sessions with nothing in flight. -/
def new (left : R) (right : S) : Network R S :=
  ⟨{ session := .new left }, { session := .new right }⟩

/-- The same endpoints, seen from the other side. -/
def swap (network : Network R S) : Network S R := ⟨network.right, network.left⟩

/-- The left endpoint acts. An endpoint neither receives nor ticks before it has sent its hello. -/
def act [ReplicationStorage R] (network : Network R S) : Action R → Network R S
  | .greet => { network with left := network.left.greet }
  | .deliver =>
    match network.left.greeted, network.right.outbox with
    | true, message :: rest =>
      { left := network.left.call (Session.receive message)
        right := { network.right with outbox := rest } }
    | _, _ => network
  | .tick =>
    if network.left.greeted then { network with left := network.left.call Session.tick }
    else network
  | .change f => { network with left := network.left.change f }

/-- An action of one of the two. -/
inductive Event (R S : Type) where
  | left (action : Action R)
  | right (action : Action S)

variable [ReplicationStorage R] [ReplicationStorage S]

/-- One event. -/
def step (network : Network R S) : Event R S → Network R S
  | .left action => network.act action
  | .right action => (network.swap.act action).swap

/-- A sequence of events. -/
def run (events : List (Event R S)) (network : Network R S) : Network R S :=
  events.foldl step network

end Network
end EditChain.Sync
