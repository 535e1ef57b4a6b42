import EditChain.Activity.Model
import EditChain.Lib.Numeral

/-!
# Spellings of identities

How operation identities, source addresses, Git object identities and commit keys are written as
text and read back, and the hexadecimal prefixes by which identities are looked up. A text is the
list of its UTF-8 bytes.
-/

namespace EditChain.Core

open Activity (GitObjectFormat GitOid)
open Migration (SourceId AddressHash)
open Numeral

/-! ## Digits as text -/

/-- A digit of a radix up to sixteen, in lower case. -/
def digitByte (d : ℕ) : UInt8 := if d < 10 then UInt8.ofNat (48 + d) else UInt8.ofNat (87 + d)

/-- A number in decimal. -/
def decimal (n : ℕ) : Bytes := (shortest n).map digitByte

/-- `{:02x}`. -/
def hexByte (byte : UInt8) : Bytes := [digitByte (byte.toNat / 16), digitByte (byte.toNat % 16)]

/-- `to_ascii_lowercase` of one byte. -/
def lower (byte : UInt8) : UInt8 := if 65 ≤ byte ∧ byte ≤ 90 then byte + 32 else byte

/-- `to_ascii_lowercase`. -/
def toAsciiLowercase (text : Bytes) : Bytes := text.map lower

/-- `parse` of an unsigned integer of `width` bits. -/
def parseUnsigned (width : ℕ) (text : Bytes) : Option ℕ := fromStrRadix 10 (2 ^ width) text

/-- `chunks_exact(2)`. -/
def pairs : Bytes → List (UInt8 × UInt8)
  | first :: second :: rest => (first, second) :: pairs rest
  | _ => []

/-- `from_utf8` accepts two bytes: two ASCII characters, or one character of two bytes. -/
def isUtf8Pair (pair : UInt8 × UInt8) : Bool :=
  (pair.1 < 128 ∧ pair.2 < 128)
    ∨ (0xC2 ≤ pair.1 ∧ pair.1 ≤ 0xDF ∧ 0x80 ≤ pair.2 ∧ pair.2 ≤ 0xBF)

/-- `u8::from_str_radix` of a pair. -/
def readPair (pair : UInt8 × UInt8) : Option UInt8 :=
  if isUtf8Pair pair then (fromStrRadix 16 256 [pair.1, pair.2]).map UInt8.ofNat else none

end EditChain.Core

namespace EditChain.Migration.SourceId

open Core

/-- `node:boot:seq` -/
def display (source : SourceId) : Bytes :=
  decimal source.node.toNat ++ 58 :: (decimal source.boot.toNat ++ 58 :: decimal source.seq.toNat)

/-- Parse a source address from its display form. -/
def fromDisplayStr (text : Bytes) : Option SourceId :=
  match text.splitOn 58 with
  | [node, boot, seq] => do
    let node ← parseUnsigned 64 node
    let boot ← parseUnsigned 32 boot
    let seq ← parseUnsigned 64 seq
    return ⟨.ofNat node, .ofNat boot, .ofNat seq⟩
  | _ => none

end EditChain.Migration.SourceId

namespace EditChain.Core

open Activity (GitObjectFormat GitOid)
open Migration (SourceId AddressHash)
open Numeral

/-! ## Operation identities -/

/-- `Display` of an operation identity. -/
def displayId (id : OpId) : Bytes := (idBytes id).flatMap hexByte

/-- `OpId::from_display_str`: a full hexadecimal ID or the translation of an EC02 address. -/
def idFromDisplayStr [AddressHash] (text : Bytes) : Option OpId :=
  if 58 ∈ text then (SourceId.fromDisplayStr text).map SourceId.id
  else if text.length ≠ 64 then none
  else ((pairs text).mapM readPair).map idOfBytes

/-- Validated full identity or hexadecimal prefix. -/
structure IdQuery where
  text : Bytes
  lower : OpId
  upper : OpId
deriving DecidableEq, Repr

namespace IdQuery

/-- `is_ascii_hexdigit` -/
def isHexDigit (byte : UInt8) : Bool := (digit? 16 byte).isSome

/-- Parse a full ID, a prefix, or an EC02 `node:boot:seq` address. -/
def parse [AddressHash] (value : Bytes) : Option IdQuery := do
  let text ← (if 58 ∈ value then (idFromDisplayStr value).map displayId
    else some (toAsciiLowercase value))
  if ¬ (4 ≤ text.length ∧ text.length ≤ 64) ∨ ¬ text.all isHexDigit then none
  else
    let pad := 64 - text.length
    let lower ← idFromDisplayStr (text ++ List.replicate pad 48)
    let upper ← idFromDisplayStr (text ++ List.replicate pad 102)
    return ⟨text, lower, upper⟩

/-- Inclusive binary bounds suitable for an ordered ID index. -/
def bounds (query : IdQuery) : OpId × OpId := (query.lower, query.upper)

/-- Full IDs can address missing records without prefix resolution. -/
def full (query : IdQuery) : Option OpId := if query.text.length = 64 then some query.lower else none

end IdQuery

/-! ## Git -/

/-- The number that bytes denote. -/
def bytesValue (bytes : Bytes) : ℕ := value 256 (bytes.map UInt8.toNat)

lemma idOfBytes_eq (bytes : Bytes) : idOfBytes bytes = BitVec.ofNat 256 (bytesValue bytes) := by
  unfold idOfBytes bytesValue value
  rw [List.foldl_map]
  simp only [Nat.mul_comm 256]

/-- Twelve zeros behind the bytes of a digest. -/
lemma extractLsb'_padded (bytes : Bytes) :
    (idOfBytes (bytes ++ List.replicate 12 0)).extractLsb' 0 96 = 0 := by
  have hzeros : value 256 ((List.replicate 12 (0 : UInt8)).map UInt8.toNat) = 0 := by decide
  have hvalue : bytesValue (bytes ++ List.replicate 12 0) = bytesValue bytes * 2 ^ 96 := by
    unfold bytesValue
    rw [List.map_append, value_append, hzeros]
    norm_num
  apply BitVec.eq_of_toNat_eq
  rw [idOfBytes_eq, hvalue, BitVec.extractLsb'_toNat, BitVec.toNat_ofNat, Nat.shiftRight_zero,
    Nat.mod_mod_of_dvd _ (Nat.pow_dvd_pow 2 (by decide)), Nat.mul_mod_left]
  rfl

/-- `digest_len` -/
def digestLen : GitObjectFormat → ℕ
  | .sha1 => 20
  | .sha256 => 32

/-- Decode a single ASCII hex nibble into its 0–15 value. -/
def hexNibble (byte : UInt8) : Option UInt8 :=
  if 48 ≤ byte ∧ byte ≤ 57 then some (byte - 48)
  else if 97 ≤ byte ∧ byte ≤ 102 then some (byte - 97 + 10)
  else if 65 ≤ byte ∧ byte ≤ 70 then some (byte - 65 + 10)
  else none

/-- One byte of `from_hex`. -/
def nibbles (pair : UInt8 × UInt8) : Option UInt8 := do
  let hi ← hexNibble pair.1
  let lo ← hexNibble pair.2
  return (hi <<< 4) ||| lo

/-- `from_hex`: 40 hexadecimal digits (SHA-1) or 64 (SHA-256). -/
def oidFromHex (hex : Bytes) : Option GitOid :=
  if hex.length = 40 then
    ((pairs hex).mapM nibbles).map fun bytes =>
      ⟨.sha1, idOfBytes (bytes ++ List.replicate 12 0), fun _ => extractLsb'_padded bytes⟩
  else if hex.length = 64 then
    ((pairs hex).mapM nibbles).map fun bytes => ⟨.sha256, idOfBytes bytes, nofun⟩
  else none

/-- `to_hex`: the significant digest bytes. -/
def oidToHex (oid : GitOid) : Bytes :=
  ((idBytes oid.bytes).take (digestLen oid.format)).flatMap fun byte : UInt8 =>
    [digitByte (byte >>> 4).toNat, digitByte (byte &&& 0x0f).toNat]

/-- A Git commit identity qualified by its repository. -/
structure GitCommitKey where
  repository : UInt64
  oid : GitOid
deriving DecidableEq, Repr

namespace GitCommitKey

/-- `git:` -/
def marker : Bytes := [103, 105, 116, 58]

/-- `Display` of a commit key. -/
def display (key : GitCommitKey) : Bytes :=
  marker ++ (decimal key.repository.toNat ++ 58 :: oidToHex key.oid)

/-- `strip_prefix` -/
def stripMarker (text : Bytes) : Option Bytes :=
  if text.take 4 = marker then some (text.drop 4) else none

/-- `split_once(':')` -/
def splitOnce (text : Bytes) : Option (Bytes × Bytes) :=
  match text.dropWhile (· ≠ 58) with
  | [] => none
  | _ :: rest => some (text.takeWhile (· ≠ 58), rest)

/-- Parse the display key. Bare OIDs are ambiguous and are rejected. -/
def fromDisplayStr (text : Bytes) : Option GitCommitKey := do
  let rest ← stripMarker text
  let (repository, oid) ← splitOnce rest
  let repository ← parseUnsigned 64 repository
  let oid ← oidFromHex oid
  return ⟨.ofNat repository, oid⟩

end GitCommitKey

end EditChain.Core
