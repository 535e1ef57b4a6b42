import EditChain.Store.FrameTheorems
import EditChain.Store.Scan

/-!
# Pages and frames as values

`encode_ec03` and `decode_ec03` write and read one frame; `encode_page` and `decode_page` do the
same for a legacy EC02 page, which has neither a count nor a checksum. `decode_page` iterates a
`PageScanner` and keeps the complete records before an interrupted write.
-/

namespace EditChain.Store

open ByteString Fallible

variable [Checksum]

/-! ## EC03 -/

/-- An owned EC03 frame. Lengths and counts are derived by the encoder. -/
structure Ec03Frame where
  pageSequence : UInt32
  records : List Record
deriving DecidableEq, Repr

/-- An empty frame. -/
def Ec03Frame.new (pageSequence : UInt32) : Ec03Frame := ⟨pageSequence, []⟩

/-- Append exact record evidence, preserving its flags. -/
def Ec03Frame.addRecord (frame : Ec03Frame) (flags : UInt8) (data : Bytes) : Ec03Frame :=
  { frame with records := frame.records ++ [⟨flags, data⟩] }

/-- Encode a frame. -/
def encodeEc03 (frame : Ec03Frame) : Except FrameError Bytes :=
  encodeRecords frame.pageSequence frame.records

/-- The size that a frame declares in its header. -/
def declaredLength (bytes : Bytes) : ℕ := leNat ((bytes.take 12).drop 8)

/-- Every record takes up space. -/
lemma length_lt_of_scanRecord {remaining rest : Bytes} {record : CheckedRecord}
    (h : scanRecord remaining = .ok record) (hrest : from? remaining record.length = some rest) :
    rest.length < remaining.length := by
  obtain ⟨written, after, rfl, rfl, -⟩ := scanRecord_eq_ok h
  have hlen : (checked written).length = written.data.length + 9 := rfl
  unfold from? at hrest
  split at hrest
  · cases hrest
    rw [List.length_drop, hlen, List.length_append, length_encodeRecord, recordOverhead]
    omega
  · cases hrest

/-- The loop of `decode_ec03`: add records until nothing is left. -/
def decodeRecords (result : Ec03Frame) (remaining : Bytes) : Except FrameError Ec03Frame :=
  if remaining = [] then .ok result
  else
    match _hscan : scanRecord remaining with
    | .error error => .error error
    | .ok record =>
      match _hrest : from? remaining record.length with
      | none => .error .length
      | some rest => decodeRecords (result.addRecord record.flags record.data) rest
termination_by remaining.length
decreasing_by exact length_lt_of_scanRecord _hscan _hrest

/-- Decode one complete frame. Any following frame remains the caller's input. -/
def decodeEc03 (bytes : Bytes) : Except FrameError Ec03Frame := do
  let frame ← scanFrame bytes
  decodeRecords (.new frame.sequence) frame.records

/-! ## EC02 -/

/-- A page cannot be represented by the supported EC02 writer/reader contract. -/
inductive PageEncodeError where
  /-- Page magic must be the EC02 marker. -/
  | invalidMagic
  /-- Payload length exceeds the supported record limit. -/
  | recordTooLarge (length : ℕ)
deriving DecidableEq, Repr

/-- One record of a page: length, flags and payload. -/
def pageRecord (record : Record) : Bytes :=
  leBytes 4 record.data.length ++ [record.flags] ++ record.data

/-- The records of a page, appended one by one. -/
def encodePageRecords : Bytes → List Record → Except PageEncodeError Bytes
  | buf, [] => .ok buf
  | buf, record :: records =>
    if maxRecordBytes < record.data.length then .error (.recordTooLarge record.data.length)
    else encodePageRecords (buf ++ pageRecord record) records

/-- Encode a page into bytes. -/
def encodePage (page : Page) : Except PageEncodeError Bytes :=
  if page.magic ≠ pageMagic then .error .invalidMagic
  else encodePageRecords (page.magic ++ leBytes 4 page.pageSeq.toNat) page.records

/-- Add the records that a scanner yields to a page, up to the next page. -/
def decodeItems : Page → List (Except ScanError ScanItem) → Option Page
  | page, [] => some page
  | page, .ok (.record record) :: items => decodeItems (page.addRecord record.flags record.data) items
  | page, .ok (.page _ _) :: _ => some page
  | page, .error error :: _ => if error.kind = .incompleteTail then some page else none

/-- Decode the first page, retaining complete records before an incomplete trailing write. -/
def decodePage (bytes : Bytes) : Option Page :=
  match (PageScanner.new bytes).next with
  | (some (.ok (.page sequence _)), scanner) => decodeItems (.new sequence) scanner.items.1
  | _ => none

end EditChain.Store
