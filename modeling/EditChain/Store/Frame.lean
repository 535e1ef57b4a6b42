import EditChain.Core.Basic
import EditChain.Lib.ByteString

/-!
# EC03 frames

`encode_records` writes one bounded frame: a 32-byte header with its own checksum, the records,
each with a checksum of its payload, and a checksum of the whole frame. `scan_frame` verifies the
entire frame before any record becomes visible. The legacy EC02 page and the record type shared by
both formats live here too.
-/

namespace EditChain.Store

open ByteString

variable [Checksum]

/-- Largest record written or accepted by the EC02/EC03 readers and writer: 64 MiB. -/
def maxRecordBytes : ℕ := 64 * 1024 * 1024

/-- Maximum frame size, independent of the segment rollover target: 128 MiB. -/
def maxFrameBytes : ℕ := 128 * 1024 * 1024

/-- `b"EC03"`. -/
def magic : Bytes := [0x45, 0x43, 0x30, 0x33]

/-- `b"EC02"`. -/
def pageMagic : Bytes := [0x45, 0x43, 0x30, 0x32]

def ec03FormatVersion : ℕ := 2
def headerBytes : ℕ := 32
def frameOverhead : ℕ := headerBytes + 4
def recordOverhead : ℕ := 9

/-- A single record within a page or frame. -/
structure Record where
  flags : UInt8
  data : Bytes
deriving DecidableEq, Repr

/-- A page of records. -/
structure Page where
  magic : Bytes
  pageSeq : UInt32
  records : List Record
deriving DecidableEq, Repr

/-- A new page with the given sequence number. -/
def Page.new (pageSeq : UInt32) : Page := ⟨pageMagic, pageSeq, []⟩

/-- Add a record to a page. -/
def Page.addRecord (page : Page) (flags : UInt8) (data : Bytes) : Page :=
  { page with records := page.records ++ [⟨flags, data⟩] }

/-- Structured framing failure. -/
inductive FrameError where
  /-- The input ends before the complete declared frame. -/
  | incomplete
  /-- The magic does not identify an EC03 frame. -/
  | magic
  /-- Unsupported wire version, header size, or mandatory feature flags. -/
  | unsupported
  /-- Invalid or excessive frame/record length or record count. -/
  | length
  /-- Header, record, or frame checksum mismatch. -/
  | checksum
deriving DecidableEq, Repr

/-- `{:?}` of a framing failure. -/
def FrameError.debug : FrameError → String
  | .incomplete => "Incomplete"
  | .magic => "Magic"
  | .unsupported => "Unsupported"
  | .length => "Length"
  | .checksum => "Checksum"

/-- The displayed text of a framing failure. -/
def FrameError.display (error : FrameError) : String := "EC03 frame: " ++ error.debug

/-! ## Encoding -/

/-- Sum the frame length and count the records, rejecting an oversized record. -/
def measure : List Record → ℕ → ℕ → Except FrameError (ℕ × ℕ)
  | [], length, count => .ok (length, count)
  | record :: rest, length, count =>
    if maxRecordBytes < record.data.length then .error .length
    else if 2 ^ 32 ≤ count + 1 then .error .length
    else measure rest (length + recordOverhead + record.data.length) (count + 1)

/-- One encoded record: length, flags, payload and the checksum of the payload. -/
def encodeRecord (record : Record) : Bytes :=
  leBytes 4 record.data.length ++ [record.flags] ++ record.data
    ++ leBytes 4 (Checksum.checksum record.data).toNat

/-- The 28 header bytes its checksum covers. -/
def headerFields (length count : ℕ) (sequence : UInt32) : Bytes :=
  magic ++ leBytes 2 ec03FormatVersion ++ leBytes 2 32 ++ leBytes 4 length ++ leBytes 4 count
    ++ leBytes 8 sequence.toNat ++ leBytes 4 0

/-- Append the checksum of the bytes so far. -/
def sealBytes (bytes : Bytes) : Bytes := bytes ++ leBytes 4 (Checksum.checksum bytes).toNat

/-- Encode a frame, checking all sizes first. -/
def encodeRecords (sequence : UInt32) (records : List Record) : Except FrameError Bytes := do
  let (length, count) ← measure records frameOverhead 0
  if 2 ^ 32 ≤ length then throw .length
  if maxFrameBytes < length then throw .length
  return sealBytes (sealBytes (headerFields length count sequence) ++ records.flatMap encodeRecord)

/-! ## Scanning -/

/-- `option.ok_or(error)`. -/
def okOr {α : Type} (option : Option α) (error : FrameError) : Except FrameError α :=
  match option with
  | some a => .ok a
  | none => .error error

/-- The `n` bytes at `offset`. -/
def array (n : ℕ) (bytes : Bytes) (offset : ℕ) : Except FrameError Bytes :=
  okOr (slice? bytes offset (offset + n)) .incomplete

/-- A checked record borrowed from a frame. -/
structure CheckedRecord where
  flags : UInt8
  data : Bytes
  checksum : UInt32
  length : ℕ
deriving DecidableEq, Repr

/-- Check the record at the front of `bytes`. -/
def scanRecord (bytes : Bytes) : Except FrameError CheckedRecord := do
  let length := leNat (← array 4 bytes 0)
  if maxRecordBytes < length then throw .length
  let stop := length + 5
  let data ← okOr (slice? bytes 5 stop) .length
  let flags ← okOr bytes[4]? .length
  let stored ← okOr (slice? bytes stop (stop + 4)) .length
  if Checksum.checksum data ≠ UInt32.ofNat (leNat stored) then throw .checksum
  return ⟨flags, data, UInt32.ofNat (leNat stored), stop + 4⟩

/-- Check `count` records and return what is left of the region. -/
def scanRecords : ℕ → Bytes → Except FrameError Bytes
  | 0, remaining => .ok remaining
  | count + 1, remaining => do
    let record ← scanRecord remaining
    scanRecords count (← okOr (from? remaining record.length) .length)

/-- A validated frame borrowing the input. -/
structure FrameRef where
  sequence : UInt32
  length : ℕ
  records : Bytes
deriving DecidableEq, Repr

/-- Check the header and return the declared frame length. -/
def scanHeader (bytes : Bytes) : Except FrameError ℕ := do
  if (← array 4 bytes 0) ≠ magic then throw .magic
  let header ← okOr (slice? bytes 0 headerBytes) .incomplete
  if Checksum.checksum (← okOr (slice? header 0 28) .length)
      ≠ UInt32.ofNat (leNat (← array 4 bytes 28)) then throw .checksum
  if leNat (← array 2 bytes 4) ≠ ec03FormatVersion ∨ leNat (← array 2 bytes 6) ≠ 32
      ∨ leNat (← array 4 bytes 24) ≠ 0 then throw .unsupported
  let declared := leNat (← array 4 bytes 8)
  if maxFrameBytes < declared ∨ declared < frameOverhead then throw .length
  return declared

/-- Verify the entire frame before making any record visible. -/
def scanFrame (bytes : Bytes) : Except FrameError FrameRef := do
  let length ← scanHeader bytes
  let frame ← okOr (slice? bytes 0 length) .incomplete
  let stop := length - 4
  if Checksum.checksum (← okOr (slice? frame 0 stop) .length)
      ≠ UInt32.ofNat (leNat (← array 4 frame stop)) then throw .checksum
  let records ← okOr (slice? frame headerBytes stop) .length
  let count := leNat (← array 4 bytes 12)
  if records.length / recordOverhead < count then throw .length
  let remaining ← scanRecords count records
  if remaining ≠ [] then throw .length
  let sequence := leNat (← array 8 bytes 16)
  if 2 ^ 32 ≤ sequence then throw .length
  return ⟨UInt32.ofNat sequence, length, records⟩

end EditChain.Store
