import EditChain.Sync.Peer
import EditChain.Sync.World

/-!
# Sessions on a device

A device with sessions that are open to its peers. A session works on the files of the device
through a replica of its own, while the device captures history, writes content, and opens other
sessions. A process that stops is a turn that fails at any of its durable steps, on a session that
gets no further turn.
-/

namespace EditChain.Sync

open Core Fallible Store

variable {Op : Type} [Schema Op] [Blake3] [Checksum] [ScopeJson] [ContentSchema Op]

/-- The code of a turn. -/
def Session.turn {R : Type} [ReplicationStorage R] :
    Input → Fallible IoError (Session R) (List Message)
  | .receive message => Session.receive message
  | .tick => Session.tick

/-- The message that a turn is given. -/
def Input.messages : Input → List Message
  | .receive message => [message]
  | .tick => []

/-- A session and the messages it was given. -/
structure Link where
  session : Session Workspace
  received : List Message := []

/-- The files of a device and the sessions that were opened on them. -/
structure Device where
  root : Root
  links : List Link := []

namespace Device

/-- What can happen to a device under one sharing scope. -/
inductive Event where
  | script (io : Io)
  | capture (calls : List Store.Call)
  | write (bytes : Bytes)
  /-- A peer is connected. -/
  | connect (space : String) (backfill : Bool)
  | turn (link : ℕ) (input : Input)

/-- A device that was never used. -/
def empty : Device := { root := .empty }

/-- A session that sees the files as they are. -/
def current (d : Device) (link : Link) : Session Workspace :=
  { link.session with replica := { link.session.replica with root := d.root } }

/-- The device after an event. -/
def next (d : Device) : Event → Device
  | .script io => { d with root := { d.root with io := io } }
  | .capture calls => { d with root := { d.root with chain := World.captured calls d.root.chain } }
  | .write bytes => { d with root := ((Root.writeBlob bytes).exec d.root).2 }
  | .connect space backfill =>
    match (Replica.openSpace space backfill).exec d.root with
    | (.ok replica, root) => ⟨root, d.links ++ [{ session := .new ⟨root, replica⟩ }]⟩
    | (.error _, root) => { d with root := root }
  | .turn i input =>
    match d.links[i]? with
    | none => d
    | some link =>
      let run := (Session.turn input).exec (d.current link)
      ⟨run.2.replica.root, d.links.set i ⟨run.2, link.received ++ input.messages⟩⟩

/-- What a turn answers. -/
def answer (d : Device) (i : ℕ) (input : Input) : Option (Except IoError (List Message)) :=
  d.links[i]?.map fun link => ((Session.turn input).exec (d.current link)).1

/-- The device after some events. -/
def run (events : List Event) : Device := events.foldl next empty

end Device
end EditChain.Sync
