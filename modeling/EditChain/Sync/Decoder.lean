import EditChain.Lib.UnitWriter
import EditChain.Sync.Wire

/-!
# Reading frames from a byte stream

The decoder that takes the chunks of a transport as they arrive and hands out the messages that are
complete. How a message is read from its payload is up to the serialization library.
-/

namespace EditChain.Sync

open Core Fallible ByteString

/-- `postcard::take_from_bytes` of a message: the message at the front and the bytes after it. -/
class PostcardReader where
  takeMessage : Bytes → Except PostcardError (Message × Bytes)

variable [PostcardReader]

/-- Decode an exact payload, rejecting trailing bytes and unsupported variants. -/
def decodeMessage (payload : Bytes) : Except IoError Message := do
  if maxFrameBytes < payload.length then throw (invalid "peer frame exceeds limit")
  let taken ← (PostcardReader.takeMessage payload).mapError PostcardError.other
  if taken.2 ≠ [] then throw (invalid "peer message has trailing bytes")
  return taken.1

/-- Incremental decoder retaining at most one bounded frame. -/
structure FrameDecoder where
  bytes : Bytes := []
deriving DecidableEq, Repr

namespace FrameDecoder

/-- `while let Some(header) = self.bytes.get(..4)`, for at most the given number of frames. -/
def takeFrames : ℕ → List Message → Fallible IoError FrameDecoder (List Message)
  | 0, messages => return messages
  | fuel + 1, messages => do
    let decoder ← get
    match slice? decoder.bytes 0 4 with
    | none => return messages
    | some header =>
      let length := leNat header
      if length = 0 ∨ maxFrameBytes < length then throw (invalid "invalid peer frame length")
      match slice? decoder.bytes 4 (length + 4) with
      | none => return messages
      | some payload =>
        let message ← lift (decodeMessage payload)
        set (FrameDecoder.mk (decoder.bytes.drop (length + 4)))
        takeFrames fuel (messages ++ [message])

/-- Consume one transport chunk; fragmented headers and payloads are supported. Every frame is
longer than a byte, so that there are fewer frames than bytes. -/
def push (bytes : Bytes) : Fallible IoError FrameDecoder (List Message) := do
  if maxFrameBytes < bytes.length then throw (invalid "transport chunk exceeds limit")
  modify fun decoder => { decoder with bytes := decoder.bytes ++ bytes }
  let decoder ← get
  takeFrames decoder.bytes.length []

/-- Verify that EOF occurred between complete frames. -/
def finish (decoder : FrameDecoder) : Except IoError Unit :=
  if decoder.bytes = [] then .ok () else .error (invalid "truncated peer frame")

/-- Push one chunk after another; the messages that each push returned. -/
def pushAll : List Bytes → Fallible IoError FrameDecoder (List (List Message))
  | [] => return []
  | chunk :: chunks => do
    let messages ← push chunk
    let later ← pushAll chunks
    return messages :: later

end FrameDecoder

end EditChain.Sync
