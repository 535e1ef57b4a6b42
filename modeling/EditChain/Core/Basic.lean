import Mathlib.Algebra.Group.Nat.Defs
import Mathlib.Tactic.Common
import Std.Data.ExtTreeMap

/-!
# Shared vocabulary

Bytes, identities, I/O errors and the parts of the program that are taken from outside the
modelled crates: the operation schema behind `decode_op`, the BLAKE3 digest and the CRC-32C
checksum.
-/

namespace EditChain

/-- Owned or borrowed bytes. -/
abbrev Bytes := List UInt8

/-- A canonical operation identity: 32 bytes, most significant first. -/
abbrev OpId := BitVec 256

instance : Std.TransOrd OpId := inferInstanceAs (Std.TransOrd (BitVec 256))

/-- A BLAKE3 digest: 32 bytes, most significant first. -/
abbrev Digest := BitVec 256

/-! ## Errors -/

/-- The error kinds the program distinguishes or produces. -/
inductive ErrorKind where
  | notFound
  | wouldBlock
  | invalidInput
  | invalidData
  | unexpectedEof
  | unsupported
  | alreadyExists
  | interrupted
  | other
deriving DecidableEq, Repr

/-- An `io::Error`: its kind and its displayed text. -/
structure IoError where
  kind : ErrorKind
  text : String
deriving DecidableEq, Repr

/-- `io::Error::new(InvalidData, message)`, the crates' helper for rejected input. -/
def invalid (message : String) : IoError := ⟨.invalidData, message⟩

/-! ## Code outside the modelled crates -/

/-- An error of the serialization library. -/
structure PostcardError where
  text : String
deriving DecidableEq, Repr

/-- `io::Error::other(error)` around a serialization error. -/
def PostcardError.other (error : PostcardError) : IoError := ⟨.other, error.text⟩

/-- The operation schema: `decode_op` and what the program reads from a decoded operation. -/
class Schema (Op : outParam Type) where
  decodeOp : Bytes → Except PostcardError Op
  /-- The canonical identity of an operation. -/
  id : Op → OpId
  /-- `Op::parent_ids`. -/
  parentIds : Op → List OpId

/-- The BLAKE3 hash function. -/
class Blake3 where
  hash : Bytes → Digest

/-- The CRC-32C checksum of the frame format. -/
class Checksum where
  checksum : Bytes → UInt32

/-- One bit of the reflected CRC-32C register. -/
def crcBit (register : UInt32) : UInt32 :=
  if register &&& 1 = 1 then (register >>> 1) ^^^ 0x82F63B78 else register >>> 1

/-- `CRC_32_ISCSI`, bit by bit. -/
def crc32c (bytes : Bytes) : UInt32 :=
  bytes.foldl (fun register b => Nat.repeat crcBit 8 (register ^^^ b.toUInt32)) 0xFFFFFFFF
    ^^^ 0xFFFFFFFF

/-- The checksum of the program. -/
@[reducible] def crc32cChecksum : Checksum := ⟨crc32c⟩

/-! ## A recorded operation

The message operation of the format tests, in the legacy encoding and in the versioned one, and
the part of `decode_op` that concerns such messages.
-/

/-- Ten continuation bytes and `b"ECR3"`. -/
def recordMagic : Bytes := List.replicate 10 0xff ++ [0x45, 0x43, 0x52, 0x33]

/-- No parents, actor 1, a wall clock, no scope, the message tag and the text `hello world`. -/
def messageBody : Bytes :=
  [0, 1, 2, 128, 208, 149, 255, 188, 49, 0, 8, 2, 1, 11, 104, 101, 108, 108, 111, 32, 119, 111,
    114, 108, 100, 0]

/-- The legacy encoding of the message at node 1, boot 0, sequence 42. -/
def messageV1 : Bytes := [1, 0, 42] ++ messageBody

/-- The identity derived from that source address. -/
def messageId : OpId := 0x14721180b5564d64c8b55873b00e440aa49105bd3d1350fa3412e285beba758c

/-- The bytes of an identity. -/
def idBytes (id : OpId) : Bytes :=
  (List.range 32).map fun i => UInt8.ofNat (id.toNat / 256 ^ (31 - i))

/-- The identity made of 32 bytes. -/
def idOfBytes (bytes : Bytes) : OpId :=
  BitVec.ofNat 256 (bytes.foldl (fun n b => 256 * n + b.toNat) 0)

/-- The versioned encoding of the same message, with its source address. -/
def messageV3 : Bytes := recordMagic ++ [1] ++ idBytes messageId ++ [1, 1, 0, 42] ++ messageBody

/-- The versioned encoding of such a message under any identity, without a source address. -/
def messageAt (id : OpId) : Bytes := recordMagic ++ [1] ++ idBytes id ++ [0] ++ messageBody

/-- `decode_op` on these messages and on truncated input. -/
@[reducible] def messageSchema : Schema OpId where
  decodeOp bytes :=
    let id := idOfBytes ((bytes.drop 15).take 32)
    if bytes = messageV1 ∨ bytes = messageV3 then .ok messageId
    else if bytes = messageAt id then .ok id
    else .error ⟨"Hit the end of buffer, expected more data"⟩
  id := id
  parentIds _ := []

/-- BLAKE3 on the two encodings of the message. -/
@[reducible] def messageDigests : Blake3 where
  hash bytes :=
    if bytes = messageV1 then 0xe2fefd184051a01b74cd78e17f05b6f9468d776bc52e54def1127133856b13bf
    else if bytes = messageV3 then
      0x935513bcd9703da94d487b6909bf1c748aefb545ec3271cc4d6035ae89c0545c
    else 0

end EditChain
