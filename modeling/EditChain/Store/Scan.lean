import EditChain.Store.Frame

/-!
# Borrowed EC02/EC03 scanning

`PageScanner` yields the complete page headers and records of a segment with their offsets, and
ends with at most one error. Inside an EC03 frame, which is validated as a whole when its header
is reached, it steps from record to record; between frames it reads EC02 headers and records.
-/

namespace EditChain.Store

open ByteString

variable [Checksum]

/-- A complete record and its exact source location. -/
structure RecordRef where
  pageSequence : UInt32
  /-- Offset of the record length prefix. -/
  offset : ℕ
  /-- Offset of the encoded operation, after length and flags. -/
  dataOffset : ℕ
  flags : UInt8
  data : Bytes
  /-- Independent EC03 record checksum, absent in legacy EC02. -/
  checksum : Option UInt32
deriving DecidableEq, Repr

/-- A complete page header or record borrowed from a segment. -/
inductive ScanItem where
  | page (sequence : UInt32) (offset : ℕ)
  | record (record : RecordRef)
deriving DecidableEq, Repr

/-- Why a scanner stopped before clean end of input. -/
inductive ScanErrorKind where
  /-- A final page header or record was not fully written. -/
  | incompleteTail
  /-- Bytes where the first page header was expected have an invalid magic. -/
  | invalidMagic
  /-- A recognizable page marker names another format. -/
  | unsupportedFormat (marker : Bytes)
  /-- A record's declared length exceeds the supported bound. -/
  | recordTooLarge (length : ℕ)
  /-- A complete EC03 frame failed validation. -/
  | frame (error : FrameError)
deriving DecidableEq, Repr

/-- `{:?}` of a scanner outcome. -/
def ScanErrorKind.debug : ScanErrorKind → String
  | .incompleteTail => "IncompleteTail"
  | .invalidMagic => "InvalidMagic"
  | .unsupportedFormat marker =>
    "UnsupportedFormat([" ++ ", ".intercalate (marker.map toString) ++ "])"
  | .recordTooLarge length => "RecordTooLarge(" ++ toString length ++ ")"
  | .frame error => "Frame(" ++ error.debug ++ ")"

/-- The first unread item and the reason it could not be consumed. -/
structure ScanError where
  offset : ℕ
  kind : ScanErrorKind
deriving DecidableEq, Repr

/-- The displayed text of a scanner outcome. -/
def ScanError.display (error : ScanError) : String :=
  "segment scan at byte " ++ toString error.offset ++ ": " ++ error.kind.debug

/-- Scanner over the bytes of one segment. -/
structure PageScanner where
  bytes : Bytes
  offset : ℕ
  pageSequence : Option UInt32
  frameEnd : Option ℕ
  finished : Bool
deriving DecidableEq, Repr

namespace PageScanner

/-- Start scanning at the first page header in a segment. -/
def new (bytes : Bytes) : PageScanner := ⟨bytes, 0, none, none, false⟩

/-- Resume at a complete-record boundary inside an already opened page. -/
def resume (bytes : Bytes) (pageSequence : Option UInt32) : PageScanner :=
  ⟨bytes, 0, pageSequence, none, false⟩

/-- Bytes consumed through the last complete header or record. -/
def consumed (s : PageScanner) : ℕ := s.offset

/-- An error at the current offset. -/
def error (s : PageScanner) (kind : ScanErrorKind) : ScanError := ⟨s.offset, kind⟩

/-- `matches!(prefix, [b'E', b'C', b'0'..=b'9', b'0'..=b'9'])`. -/
def isPageMarker : Bytes → Bool
  | [e, c, d, u] => e = 0x45 ∧ c = 0x43 ∧ 0x30 ≤ d ∧ d ≤ 0x39 ∧ 0x30 ≤ u ∧ u ≤ 0x39
  | _ => false

/-- The next record of the validated frame that ends at `stop`. -/
def nextInFrame (s : PageScanner) (stop : ℕ) : Except ScanError ScanItem × PageScanner :=
  match scanRecord (s.bytes.drop s.offset) with
  | .error error => (.error (s.error (.frame error)), s)
  | .ok record =>
    let item : RecordRef :=
      { pageSequence := s.pageSequence.getD 0
        offset := s.offset
        dataOffset := s.offset + 5
        flags := record.flags
        data := record.data
        checksum := some record.checksum }
    let next := s.offset + record.length
    if next = stop - 4 then
      (.ok (.record item), { s with offset := stop, frameEnd := none, pageSequence := none })
    else (.ok (.record item), { s with offset := next })

/-- The page item of an EC03 frame, after validating the whole frame. -/
def nextFrame (s : PageScanner) : Except ScanError ScanItem × PageScanner :=
  match scanFrame (s.bytes.drop s.offset) with
  | .error error =>
    (.error (s.error (if error = .incomplete then .incompleteTail else .frame error)), s)
  | .ok frame =>
    let stop := s.offset + frame.length
    let item := ScanItem.page frame.sequence s.offset
    if frame.records = [] then (.ok item, { s with offset := stop, pageSequence := none })
    else
      (.ok item, { s with
        offset := s.offset + headerBytes
        pageSequence := some frame.sequence
        frameEnd := some stop })

/-- An EC02 page header. -/
def nextPage (s : PageScanner) : Except ScanError ScanItem × PageScanner :=
  match slice? (s.bytes.drop s.offset) 4 8 with
  | none => (.error (s.error .incompleteTail), s)
  | some field =>
    let sequence := UInt32.ofNat (leNat field)
    (.ok (.page sequence s.offset), { s with offset := s.offset + 8, pageSequence := some sequence })

/-- An EC02 record of the page `pageSequence`, whose length prefix is `lengthBytes`. -/
def nextRecord (s : PageScanner) (pageSequence : UInt32) (lengthBytes : Bytes) :
    Except ScanError ScanItem × PageScanner :=
  let remaining := s.bytes.drop s.offset
  let length := leNat lengthBytes
  if maxRecordBytes < length then (.error (s.error (.recordTooLarge length)), s)
  else
    match remaining[4]? with
    | none => (.error (s.error .incompleteTail), s)
    | some flags =>
      let stop := 5 + length
      match slice? remaining 5 stop with
      | none => (.error (s.error .incompleteTail), s)
      | some data =>
        (.ok (.record
          { pageSequence := pageSequence
            offset := s.offset
            dataOffset := s.offset + 5
            flags := flags
            data := data
            checksum := none }), { s with offset := s.offset + stop })

/-- Read the next item at the current offset. -/
def nextItem (s : PageScanner) : Except ScanError ScanItem × PageScanner :=
  match s.frameEnd with
  | some stop => s.nextInFrame stop
  | none =>
    match slice? (s.bytes.drop s.offset) 0 4 with
    | none => (.error (s.error .incompleteTail), s)
    | some head =>
      if head = magic then s.nextFrame
      else if head = pageMagic then s.nextPage
      else if isPageMarker head then (.error (s.error (.unsupportedFormat head)), s)
      else
        match s.pageSequence with
        | none => (.error (s.error .invalidMagic), s)
        | some pageSequence => s.nextRecord pageSequence head

/-- `Iterator::next`: nothing after the end of the input or after an error. -/
def next (s : PageScanner) : Option (Except ScanError ScanItem) × PageScanner :=
  if s.finished ∨ s.offset = s.bytes.length then (none, s)
  else
    match s.nextItem with
    | (.ok item, t) => (some (.ok item), t)
    | (.error error, t) => (some (.error error), { t with finished := true })

/-- Iterate at most `fuel` times, collecting the items, with the scanner they leave behind. -/
def collect : ℕ → PageScanner → List (Except ScanError ScanItem) × PageScanner
  | 0, s => ([], s)
  | fuel + 1, s =>
    match s.next with
    | (none, t) => ([], t)
    | (some item, t) =>
      let (items, u) := collect fuel t
      (item :: items, u)

/-- Iterate to the end. Every item but the last moves the offset, so one step more than the input
has bytes is enough (`items_resume`). -/
def items (s : PageScanner) : List (Except ScanError ScanItem) × PageScanner :=
  s.collect (s.bytes.length + 2)

end PageScanner
end EditChain.Store
