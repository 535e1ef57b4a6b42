import EditChain.Sync.Membership

/-!
# Secure peers

A session over mutually authenticated TLS 1.3 and an opaque, bounded byte bridge. The TLS library
is a parameter: what it does on each of its calls is up to it.
-/

namespace EditChain.Sync.Secure

open Core Fallible

variable {Op : Type} [Schema Op] [Blake3] [PostcardReader] [Credentials]

/-- Largest opaque input chunk accepted from the local transport bridge. -/
def maxBridgeBytes : ℕ := 64 * 1024

/-- Maximum opaque output from a single bridge turn. -/
def maxBridgeOutput : ℕ := 256 * 1024

/-- The bytes of `editchain-peer/1`. -/
def alpn : Bytes := "editchain-peer/1".toByteArray.data.toList

/-- A connection of the TLS library. -/
class Tls (C : Type) where
  /-- `read_tls`: take in bytes from the front of the input, and say how many. -/
  readTls : Bytes → Fallible IoError C ℕ
  /-- `process_new_packets`: whether the peer has closed. -/
  processNewPackets : Fallible PUnit C Bool
  isHandshaking : C → Bool
  /-- `protocol_version` is TLS 1.3. -/
  isTls13 : C → Bool
  alpnProtocol : C → Option Bytes
  peerCertificates : C → Option (List Bytes)
  /-- `reader().read` of at most so many bytes. -/
  read : ℕ → Fallible IoError C Bytes
  /-- `writer().write_all`. -/
  writeAll : Bytes → Fallible IoError C Unit
  wantsWrite : C → Bool
  /-- `write_tls`: the bytes it appends to the output. -/
  writeTls : Fallible IoError C Bytes

/-- One approved peer's secure replication connection. -/
structure SecurePeer (R C : Type) where
  connection : C
  membership : Membership
  session : Session R
  decoder : FrameDecoder := {}
  authenticated : Option PublicDevice := none
  expected : Option String
  failed : Bool := false

/-- A peer during a turn, with the output and the number of messages of the turn. -/
structure Turn (R C : Type) where
  peer : SecurePeer R C
  output : Bytes := []
  messages : ℕ := 0

/-- `tls_error`: no library diagnostics cross the boundary. -/
def tlsError : PeerError := .authentication "peer TLS authentication or protocol failed"

namespace Turn

variable {R C : Type} [ReplicationStorage R] [Tls C]

/-! ## Parts of a peer -/

/-- Call the TLS library. -/
def onTls {ε α : Type} (wrap : ε → PeerError) (m : Fallible ε C α) :
    Fallible PeerError (Turn R C) α :=
  of fun turn => ((m.exec turn.peer.connection).1.mapError wrap,
    { turn with peer := { turn.peer with connection := (m.exec turn.peer.connection).2 } })

/-- Call the session. -/
def onSession {α : Type} (m : Fallible IoError (Session R) α) :
    Fallible PeerError (Turn R C) α :=
  of fun turn => ((m.exec turn.peer.session).1.mapError .io,
    { turn with peer := { turn.peer with session := (m.exec turn.peer.session).2 } })

/-- Call the decoder. -/
def onDecoder {α : Type} (m : Fallible IoError FrameDecoder α) :
    Fallible PeerError (Turn R C) α :=
  of fun turn => ((m.exec turn.peer.decoder).1.mapError .io,
    { turn with peer := { turn.peer with decoder := (m.exec turn.peer.decoder).2 } })

/-! ## Output -/

/-- Append to the output of the turn; output past its limit fails the turn, and is dropped. -/
def emit (bytes : Bytes) : Fallible PeerError (Turn R C) Unit := do
  let turn ← get
  if bytes = [] then throw (.io (invalid "TLS output made no progress"))
  if maxBridgeOutput < (turn.output ++ bytes).length then
    throw (.io (invalid "opaque bridge output exceeds limit"))
  set { turn with output := turn.output ++ bytes }

/-- `drain`, for at most so many writes: every write adds to the bounded output. -/
def drain : ℕ → Fallible PeerError (Turn R C) Unit
  | 0 => throw (.io (invalid "opaque bridge output exceeds limit"))
  | fuel + 1 => do
    let turn ← get
    if Tls.wantsWrite turn.peer.connection then
      emit (← onTls .io Tls.writeTls)
      drain fuel
    else return ()

/-- Encode a message, hand it to the TLS connection and drain its output. -/
def send (message : Message) : Fallible PeerError (Turn R C) Unit := do
  let frame ← lift ((encodeMessage message).mapError .io)
  onTls .io (Tls.writeAll frame)
  drain (maxBridgeOutput + 2)

/-! ## Input -/

/-- The device of the one certificate that the peer has presented. -/
def presented (turn : Turn R C) (policy : Except IoError Bytes) : Except PeerError PublicDevice :=
  match Tls.peerCertificates turn.peer.connection with
  | none => .error (.io (invalid "peer omitted its device certificate"))
  | some [certificate] => turn.peer.membership.require policy certificate
  | some _ => .error (.io (invalid "peer must present one exact device certificate"))

/-- Authenticate the peer once the handshake is complete, and send the hello. -/
def authenticate (policy : Except IoError Bytes) : Fallible PeerError (Turn R C) Unit := do
  let turn ← get
  if turn.peer.authenticated.isSome ∨ Tls.isHandshaking turn.peer.connection then return ()
  else
    if ¬ Tls.isTls13 turn.peer.connection ∨ Tls.alpnProtocol turn.peer.connection ≠ some alpn then
      throw (.io (invalid "peer did not negotiate the required secure protocol"))
    let device ← lift (turn.presented policy)
    if turn.peer.expected.any fun expected => expected ≠ device.fingerprint then
      throw (.io (invalid "unexpected peer certificate"))
    set { turn with peer := { turn.peer with authenticated := some device } }
    send turn.peer.session.hello

/-- There is nothing to read where a read would block. -/
def plaintextOf : Except IoError Bytes → Except PeerError Bytes
  | .ok bytes => .ok bytes
  | .error error => if error.kind = .wouldBlock then .ok [] else .error (.io error)

/-- `reader().read` of a piece of the decrypted stream. -/
def readPlaintext : Fallible PeerError (Turn R C) Bytes :=
  of fun turn =>
    let run := (Tls.read (16 * 1024)).exec turn.peer.connection
    (plaintextOf run.1, { turn with peer := { turn.peer with connection := run.2 } })

/-- Process one decoded message, at most `maxTurnMessages` of them in a turn. -/
def takeMessage (message : Message) : Fallible PeerError (Turn R C) Unit := do
  modify fun turn => { turn with messages := saturatingAdd turn.messages 1 }
  if maxTurnMessages < (← get).messages then
    throw (.io (invalid "too many peer messages in one bridge turn"))
  let replies ← onSession (Session.receive message)
  forM replies send

/-- `plaintext`, for at most so many reads; a peer that is read for ever never ends its turn. -/
def plaintext : ℕ → Fallible PeerError (Turn R C) Unit
  | 0 => throw (.io (invalid "the turn does not end"))
  | fuel + 1 => do
    let bytes ← readPlaintext
    if bytes = [] then return ()
    else
      if (← get).peer.authenticated.isNone then
        throw (.io (invalid "application bytes before device authentication"))
      if 16 * 1024 < bytes.length then throw (.io (invalid "invalid TLS read length"))
      let messages ← onDecoder (FrameDecoder.push bytes)
      forM messages takeMessage
      plaintext fuel

/-- The loop over the input, for at most so many rounds: every round takes in some bytes. -/
def takeInput (policy : Except IoError Bytes) (reads : ℕ) :
    ℕ → Bytes → Fallible PeerError (Turn R C) Unit
  | 0, _ => return ()
  | fuel + 1, input =>
    if input = [] then return ()
    else do
      let count ← onTls .io (Tls.readTls input)
      if count = 0 then throw (.io (invalid "TLS input made no progress"))
      if ← onTls (fun _ => tlsError) Tls.processNewPackets then
        throw (.aborted "peer closed TLS")
      authenticate policy
      plaintext reads
      drain (maxBridgeOutput + 2)
      takeInput policy reads fuel (input.drop count)

/-- The authenticated device is still approved. -/
def recheck (policy : Except IoError Bytes) : Fallible PeerError (Turn R C) Unit := do
  let turn ← get
  match turn.peer.authenticated with
  | none => return ()
  | some device =>
    let der ← lift (certificateDer device.certificate)
    let _approved ← lift (turn.peer.membership.require policy der)

/-- Start a round when asked to, once the device is authenticated. -/
def tick (ticks : Bool) : Fallible PeerError (Turn R C) Unit := do
  let turn ← get
  if ticks ∧ turn.peer.authenticated.isSome then
    let messages ← onSession Session.tick
    forM messages send
  else return ()

/-- `process`. -/
def process (policy : Except IoError Bytes) (bytes : Bytes) (ticks : Bool) (reads : ℕ) :
    Fallible PeerError (Turn R C) Bytes := do
  if maxBridgeBytes < bytes.length then
    throw (.io (invalid "opaque bridge chunk exceeds limit"))
  recheck policy
  takeInput policy reads bytes.length bytes
  tick ticks
  drain (maxBridgeOutput + 2)
  return (← get).output

end Turn

namespace SecurePeer

variable {R C : Type} [ReplicationStorage R] [Tls C]

omit [ReplicationStorage R] [Tls C] in
/-- `open`: a connection of the TLS library, with the fingerprint of the server that a client
expects. -/
def new (connection : C) (membership : Membership) (replica : R) (expected : Option String) :
    SecurePeer R C where
  connection := connection
  membership := membership
  session := .new replica
  expected := expected

/-- Consume opaque TLS input and return bounded opaque output. A failure permanently invalidates
the connection. -/
def turn (policy : Except IoError Bytes) (bytes : Bytes) (ticks : Bool) (reads : ℕ) :
    Fallible PeerError (SecurePeer R C) Bytes := of fun peer =>
  if peer.failed then (.error (.io (invalid "peer connection is closed")), peer)
  else
    let run := (Turn.process policy bytes ticks reads).exec { peer := peer }
    (run.1, { run.2.peer with failed := !run.1.isOk })

/-- What can happen to a secure peer. -/
inductive Event (R C : Type) where
  /-- A turn, with what the policy file says at the time. -/
  | turn (policy : Except IoError Bytes) (bytes : Bytes) (ticks : Bool) (reads : ℕ)
  /-- `close`, and what the TLS library does on it. -/
  | close (f : C → C)
  /-- `finish`, and what the TLS library does on it. -/
  | finish (f : C → C)
  /-- The storage changes on its own. -/
  | change (f : R → R)

/-- One event. -/
def step (peer : SecurePeer R C) : Event R C → SecurePeer R C
  | .turn policy bytes ticks reads => ((turn policy bytes ticks reads).exec peer).2
  | .close f => { peer with failed := true, connection := f peer.connection }
  | .finish f => { peer with connection := f peer.connection }
  | .change f => { peer with session := { peer.session with replica := f peer.session.replica } }

/-- A sequence of events. -/
def run (events : List (Event R C)) (peer : SecurePeer R C) : SecurePeer R C :=
  events.foldl step peer

end SecurePeer
end EditChain.Sync.Secure
