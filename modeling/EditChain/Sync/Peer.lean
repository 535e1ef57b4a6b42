import EditChain.Sync.Session

/-!
# A session and its history

A session is observed from both sides: the calls it makes to its storage, recorded by a storage
that wraps another one, and the turns it takes, each a call of `receive` or `tick` with its result.
What a message tells the peer is stated over that history.
-/

namespace EditChain.Sync

open Core Fallible
open Std (ExtTreeSet)

variable {Op : Type} [Schema Op] [Blake3]

/-! ## Recorded storage calls -/

/-- A call to the storage and its outcome. -/
inductive Call where
  | ensureScope (result : Except IoError Unit)
  | snapshot (result : Except IoError Snapshot)
  | receivingSnapshot (result : Except IoError Snapshot)
  | ingestRecords (records : List (RecordKey × Bytes)) (result : Except IoError Unit)
  | blobHashes (snapshot : Snapshot) (key : RecordKey)
      (result : Except IoError (ExtTreeSet Digest))
  | readBlob (snapshot : Snapshot) (key : RecordKey) (hash : Digest)
      (result : Except IoError (Option Bytes))
  | ingestBlob (key : RecordKey) (hash : Digest) (bytes : Bytes) (result : Except IoError Unit)
  | confirmBlob (snapshot : Snapshot) (key : RecordKey) (hash : Digest)
      (result : Except IoError Bool)

/-- A storage together with the calls made to it. -/
structure Traced (R : Type) where
  store : R
  calls : List Call := []

namespace Traced

variable {R : Type}

/-- Make a call and record it. -/
def call {α : Type} (m : Fallible IoError R α) (event : Except IoError α → Call) :
    Fallible IoError (Traced R) α :=
  of fun t => ((m.exec t.store).1, ⟨(m.exec t.store).2, t.calls ++ [event (m.exec t.store).1]⟩)

end Traced

open ReplicationStorage in
/-- The wrapper behaves as the storage it wraps. -/
instance {R : Type} [ReplicationStorage R] : ReplicationStorage (Traced R) where
  namespaceOf t := namespaceOf t.store
  ensureScope := Traced.call ensureScope .ensureScope
  snapshot := Traced.call snapshot .snapshot
  receivingSnapshot := Traced.call receivingSnapshot .receivingSnapshot
  ingestRecords records := of fun t =>
    let run := (ingestRecords records).exec (t.1.store, t.2)
    (run.1, ⟨run.2.1, t.1.calls ++ [.ingestRecords records run.1]⟩, run.2.2)
  blobHashes snapshot key := Traced.call (blobHashes snapshot key) (.blobHashes snapshot key)
  readBlob snapshot key hash :=
    Traced.call (readBlob snapshot key hash) (.readBlob snapshot key hash)
  ingestBlob key hash bytes := Traced.call (ingestBlob key hash bytes) (.ingestBlob key hash bytes)
  confirmBlob snapshot key hash :=
    Traced.call (confirmBlob snapshot key hash) (.confirmBlob snapshot key hash)

/-- The snapshot that a call has frozen for receiving. -/
def Call.frozen : Call → Option Snapshot
  | .receivingSnapshot (.ok value) => some value
  | _ => none

/-- The records that a call has made durable. -/
def Call.ingested : Call → List (RecordKey × Bytes)
  | .ingestRecords records (.ok _) => records
  | _ => []

/-- The snapshot of the current round: the last one frozen for receiving. -/
def roundSnapshot (calls : List Call) : Option Snapshot :=
  calls.foldl (fun latest call => call.frozen.or latest) none

/-- All records of batches that became durable, in order. -/
def ingestedRecords (calls : List Call) : List (RecordKey × Bytes) := calls.flatMap Call.ingested

/-! ## Turns -/

/-- What can be called on a session. -/
inductive Input where
  | receive (message : Message)
  | tick
deriving DecidableEq, Repr

/-- One call of a session, its result, and all storage calls made until it returned. -/
structure Turn where
  input : Input
  result : Except IoError (List Message)
  calls : List Call

/-- A session over a recorded storage and the turns it has taken. -/
structure Peer (R : Type) where
  session : Session (Traced R)
  turns : List Turn := []

/-- The messages of a result; a failed call emits none. -/
def repliesOf : Except IoError (List Message) → List Message
  | .ok replies => replies
  | .error _ => []

/-- The messages emitted in a sequence of turns. -/
def emitted (turns : List Turn) : List Message := turns.flatMap fun turn => repliesOf turn.result

namespace Peer

variable {R : Type} [ReplicationStorage R]

/-- A fresh session over a storage. -/
def new (store : R) : Peer R := { session := .new ⟨store, []⟩ }

/-- The code of a call. -/
def code : Input → Fallible IoError (Session (Traced R)) (List Message)
  | .receive message => Session.receive message
  | .tick => Session.tick

/-- Take a turn. -/
def take (input : Input) (peer : Peer R) : Peer R :=
  let run := (code input).exec peer.session
  { session := run.2
    turns := peer.turns ++ [⟨input, run.1, run.2.replica.calls⟩] }

/-- The storage changes on its own: local appends, or a failure that comes or goes. -/
def change (f : R → R) (peer : Peer R) : Peer R :=
  { peer with session := { peer.session with
      replica := { peer.session.replica with store := f peer.session.replica.store } } }

/-- What can happen to a peer. -/
inductive Event (R : Type) where
  | call (input : Input)
  | change (f : R → R)

/-- One event. -/
def step (peer : Peer R) : Event R → Peer R
  | .call input => peer.take input
  | .change f => peer.change f

/-- A sequence of events. -/
def run (events : List (Event R)) (peer : Peer R) : Peer R := events.foldl step peer

end Peer

/-! ## What the messages say -/

/-- The pages and missing contents of the current round. -/
structure Round where
  /-- The keys of the pages before the current one. -/
  earlier : List RecordKey := []
  /-- The position of the current page. -/
  offset : ℕ := 0
  /-- The keys of the current page. -/
  page : List RecordKey := []
  /-- The contents answered to be missing. -/
  missing : List Object := []

/-- The round after a turn. -/
def Round.next (round : Round) (turn : Turn) : Round :=
  match turn.input, turn.result with
  | .tick, .ok (_ :: _) => {}
  | .receive (.hello ..), .ok (_ :: _) => {}
  | .receive (.page offset _ records _), .ok _ =>
    { round with earlier := round.earlier ++ round.page, offset := offset, page := records }
  | .receive (.missing record blob), .ok _ =>
    { round with missing := round.missing ++ [⟨record, blob⟩] }
  | _, _ => round

/-- The round after a sequence of turns. -/
def roundOf (turns : List Turn) : Round := turns.foldl Round.next {}

/-- The key was in the snapshot that the round started from. -/
def InRound (calls : List Call) (key : RecordKey) : Prop :=
  ∃ snapshot, roundSnapshot calls = some snapshot ∧ snapshot.contains key

/-- What the peer may conclude from a message, given the round, the storage calls made so far and
the messages sent before it. -/
def Vouched [ContentSchema Op] (round : Round) (calls : List Call) (sent : List Message) :
    Message → Prop
  -- the record was ingested in a durable batch, under the key its bytes derive
  | .ack key none =>
    ∃ bytes, (key, bytes) ∈ ingestedRecords calls ∧ RecordKey.fromEncoded bytes = .ok key
  -- the content was durably published, and hashes to its address
  | .ack key (some hash) =>
    ∃ bytes, .ingestBlob key hash bytes (.ok ()) ∈ calls ∧ Blake3.hash bytes = hash
  -- the current page ends there, and each of its keys was known or has been acknowledged
  | .checked position =>
    position = round.offset + round.page.length ∧
      ∀ key ∈ round.page, InRound calls key ∨ .ack key none ∈ sent
  -- the record is on the current page and was not in the local snapshot
  | .need key none _ => key ∈ round.page ∧ ¬ InRound calls key
  -- the record is on the current page and its retained bytes refer to the content
  | .need key (some hash) _ =>
    key ∈ round.page ∧ ∃ snapshot hashes bytes, .blobHashes snapshot key (.ok hashes) ∈ calls ∧
      hash ∈ hashes ∧ snapshot.record key = some bytes ∧ References bytes hash
  | _ => True

/-- A peer that has told no lie. -/
structure Truthful {R : Type} [ContentSchema Op] (peer : Peer R) : Prop where
  /-- Every message said what it says in good faith. -/
  vouched : ∀ before turn after, peer.turns = before ++ turn :: after →
    ∀ sent message rest, repliesOf turn.result = sent ++ message :: rest →
      Vouched (roundOf (before ++ [turn])) turn.calls (emitted before ++ sent) message
  /-- The counter of received records is the number of records in durable batches. -/
  counted : peer.session.progress.records
    = min (ingestedRecords peer.session.replica.calls).length u64Max
  /-- Every record of a durable batch derives its key. -/
  derived : ∀ record ∈ ingestedRecords peer.session.replica.calls,
    RecordKey.fromEncoded record.2 = .ok record.1
  /-- After a failed call every call fails, and the storage is not touched. -/
  closed : ∀ before turn after, peer.turns = before ++ turn :: after → turn.result.isOk = false →
    ∀ later ∈ after, later.result.isOk = false ∧ later.calls = turn.calls

end EditChain.Sync
