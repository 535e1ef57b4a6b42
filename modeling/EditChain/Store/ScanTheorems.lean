import EditChain.Lib.UnitReader
import EditChain.Store.FrameTheorems
import EditChain.Store.Scan

/-!
# The page scanner reads units

Seen from outside, the scanner steps over *units*: an EC02 page header, an EC02 record, or a whole
EC03 frame with all its records. `pages` is the corresponding unit reader, whose state is the page
an EC02 record would belong to, and `items_resume` says that iterating a `PageScanner` yields
exactly the items of the units of that reader, followed by the error that ended the reading.
-/

namespace EditChain.Store

open ByteString Fallible UnitReader

variable [Checksum]

/-! ## Units -/

/-- An item `n` bytes further on. -/
def ScanItem.shift (n : ℕ) : ScanItem → ScanItem
  | .page sequence offset => .page sequence (n + offset)
  | .record r => .record { r with offset := n + r.offset, dataOffset := n + r.dataOffset }

omit [Checksum] in
lemma ScanItem.shift_shift (m n : ℕ) (item : ScanItem) :
    (item.shift n).shift m = item.shift (m + n) := by
  cases item <;> simp [ScanItem.shift, Nat.add_assoc]

/-- The records of a frame, the first of them at `offset`. -/
def located (sequence : UInt32) : ℕ → List Record → List ScanItem
  | _, [] => []
  | offset, record :: records =>
    .record ⟨sequence, offset, offset + 5, record.flags, record.data,
        some (Checksum.checksum record.data)⟩
      :: located sequence (offset + (record.data.length + 9)) records

/-- The records found in the record region of a frame. -/
def regionRecords : ℕ → Bytes → List Record
  | 0, _ => []
  | fuel + 1, region =>
    match scanRecord region with
    | .error _ => []
    | .ok record => ⟨record.flags, record.data⟩ :: regionRecords fuel (region.drop record.length)

/-- The items of an accepted frame. -/
def FrameRef.items (frame : FrameRef) : List ScanItem :=
  .page frame.sequence 0
    :: located frame.sequence headerBytes (regionRecords frame.records.length frame.records)

/-- What reading one unit can find. -/
abbrev Found := Next (Option UInt32) (List ScanItem) ScanErrorKind

/-- The EC03 frame at the front of `x`. -/
def frameChunk (x : Bytes) : Found :=
  match scanFrame x with
  | .error error => if error = .incomplete then .more else .bad (.frame error)
  | .ok frame => .unit frame.items frame.length none

/-- The EC02 page header at the front of `x`. -/
def pageChunk (x : Bytes) : Found :=
  match slice? x 4 8 with
  | none => .more
  | some field =>
    .unit [.page (UInt32.ofNat (leNat field)) 0] 8 (some (UInt32.ofNat (leNat field)))

/-- The EC02 record at the front of `x`, with the length prefix `head`. -/
def recordChunk (sequence : UInt32) (head x : Bytes) : Found :=
  if maxRecordBytes < leNat head then .bad (.recordTooLarge (leNat head))
  else
    match x[4]?, slice? x 5 (5 + leNat head) with
    | some flags, some data =>
      .unit [.record ⟨sequence, 0, 5, flags, data, none⟩] (5 + leNat head) (some sequence)
    | _, _ => .more

/-- The kinds of units, told by their first four bytes. -/
inductive UnitKind where
  | frame
  | page
  | unsupported
  | orphan
  | record (sequence : UInt32)

/-- The kind of unit that starts with `head`, where an EC02 record would belong to `page`. -/
def unitKind (page : Option UInt32) (head : Bytes) : UnitKind :=
  if head = magic then .frame
  else if head = pageMagic then .page
  else if PageScanner.isPageMarker head then .unsupported
  else
    match page with
    | none => .orphan
    | some sequence => .record sequence

/-- The unit of a given kind at the front of `x`. -/
def UnitKind.read (head x : Bytes) : UnitKind → Found
  | .frame => frameChunk x
  | .page => pageChunk x
  | .unsupported => .bad (.unsupportedFormat head)
  | .orphan => .bad .invalidMagic
  | .record sequence => recordChunk sequence head x

/-- The unit at the front of `x`, where an EC02 record would belong to `page`. -/
def chunk (page : Option UInt32) (x : Bytes) : Found :=
  match slice? x 0 4 with
  | none => .more
  | some head => (unitKind page head).read head x

omit [Checksum] in
lemma unitKind_eq_frame {page : Option UInt32} {head : Bytes} :
    unitKind page head = .frame ↔ head = magic := by
  unfold unitKind
  by_cases hmagic : head = magic
  · simp [hmagic]
  · simp only [hmagic, if_false, iff_false]
    split
    · simp
    · split
      · simp
      · cases page <;> simp

omit [Checksum] in
lemma unitKind_eq_record {page : Option UInt32} {head : Bytes} {sequence : UInt32}
    (h : unitKind page head = .record sequence) : page = some sequence := by
  unfold unitKind at h
  split at h
  · cases h
  · split at h
    · cases h
    · split at h
      · cases h
      · cases page with
        | none => cases h
        | some p =>
          cases h
          rfl

lemma chunk_of_head {page : Option UInt32} {x head : Bytes} (h : slice? x 0 4 = some head) :
    chunk page x = (unitKind page head).read head x := by
  unfold chunk
  rw [h]

lemma chunk_of_lt {page : Option UInt32} {x : Bytes} (h : x.length < 4) :
    chunk page x = .more := by
  unfold chunk
  rw [(slice?_eq_none (by omega)).mpr h]

lemma frameChunk_append {x : Bytes} (hmagic : slice? x 0 4 = some magic)
    (h : frameChunk x ≠ .more) (y : Bytes) : frameChunk (x ++ y) = frameChunk x := by
  unfold frameChunk at h ⊢
  rw [scanFrame_append hmagic]
  intro hcut
  simp [hcut] at h

lemma frameChunk_eq_unit {x : Bytes} {items : List ScanItem} {n : ℕ} {page : Option UInt32}
    (h : frameChunk x = .unit items n page) :
    ∃ frame, scanFrame x = .ok frame ∧ items = frame.items ∧ n = frame.length ∧ page = none := by
  unfold frameChunk at h
  split at h
  · split at h <;> cases h
  · next frame hframe =>
    cases h
    exact ⟨frame, hframe, rfl, rfl, rfl⟩

omit [Checksum] in
lemma pageChunk_append {x : Bytes} (h : pageChunk x ≠ .more) (y : Bytes) :
    pageChunk (x ++ y) = pageChunk x := by
  have hlong : 8 ≤ x.length := by
    by_contra hlt
    refine h ?_
    unfold pageChunk
    rw [(slice?_eq_none (by omega)).mpr (by omega)]
  unfold pageChunk
  rw [slice?_append hlong]

omit [Checksum] in
lemma pageChunk_eq_unit {x : Bytes} {items : List ScanItem} {n : ℕ} {page : Option UInt32}
    (h : pageChunk x = .unit items n page) :
    ∃ field, slice? x 4 8 = some field ∧ items = [.page (UInt32.ofNat (leNat field)) 0]
      ∧ n = 8 ∧ page = some (UInt32.ofNat (leNat field)) := by
  unfold pageChunk at h
  split at h
  · cases h
  · next field hfield =>
    cases h
    exact ⟨field, hfield, rfl, rfl, rfl⟩

omit [Checksum] in
lemma recordChunk_append {sequence : UInt32} {head x : Bytes}
    (h : recordChunk sequence head x ≠ .more) (y : Bytes) :
    recordChunk sequence head (x ++ y) = recordChunk sequence head x := by
  unfold recordChunk at h ⊢
  by_cases hlarge : maxRecordBytes < leNat head
  · rw [if_pos hlarge, if_pos hlarge]
  · rw [if_neg hlarge] at h
    rw [if_neg hlarge, if_neg hlarge]
    have hlong : 5 + leNat head ≤ x.length := by
      by_contra hlt
      rw [(slice?_eq_none (by omega)).mpr (by omega)] at h
      cases hflags : x[4]? <;> simp [hflags] at h
    rw [slice?_append hlong, List.getElem?_append_left (by omega)]

omit [Checksum] in
lemma recordChunk_eq_unit {sequence : UInt32} {head x : Bytes} {items : List ScanItem} {n : ℕ}
    {page : Option UInt32} (h : recordChunk sequence head x = .unit items n page) :
    ∃ flags data, leNat head ≤ maxRecordBytes ∧ x[4]? = some flags
      ∧ slice? x 5 (5 + leNat head) = some data
      ∧ items = [.record ⟨sequence, 0, 5, flags, data, none⟩]
      ∧ n = 5 + leNat head ∧ page = some sequence := by
  unfold recordChunk at h
  split at h
  · cases h
  · next hlarge =>
    split at h
    · next flags data hflags hdata =>
      cases h
      exact ⟨flags, data, by omega, hflags, hdata, rfl, rfl, rfl⟩
    · cases h

/-- A verdict on the front of the input is not changed by what follows. -/
lemma chunk_append {page : Option UInt32} {x : Bytes} (h : chunk page x ≠ .more) (y : Bytes) :
    chunk page (x ++ y) = chunk page x := by
  by_cases hlt : x.length < 4
  · exact absurd (chunk_of_lt hlt) h
  · have hhead := slice?_of_le (s := x) (Nat.zero_le 4) (by omega)
    set head := (x.take 4).drop 0
    have hlong := (@slice?_append _ x 0 4 (by omega) y).trans hhead
    rw [chunk_of_head hhead] at h
    rw [chunk_of_head hhead, chunk_of_head hlong]
    cases hkind : unitKind page head with
    | frame =>
      rw [hkind] at h
      exact frameChunk_append (by rw [hhead, unitKind_eq_frame.mp hkind]) h y
    | page =>
      rw [hkind] at h
      exact pageChunk_append h y
    | unsupported => rfl
    | orphan => rfl
    | record sequence =>
      rw [hkind] at h
      exact recordChunk_append h y

/-- What is known of a unit that was found: its size, and that it is found in its own bytes. -/
lemma chunk_eq_unit {page next : Option UInt32} {x : Bytes} {items : List ScanItem} {n : ℕ}
    (h : chunk page x = .unit items n next) :
    0 < n ∧ n ≤ x.length ∧ chunk page (x.take n) ≠ .more := by
  by_cases hlt : x.length < 4
  · rw [chunk_of_lt hlt] at h
    cases h
  · have hhead := slice?_of_le (s := x) (Nat.zero_le 4) (by omega)
    set head := (x.take 4).drop 0 with hheaddef
    rw [chunk_of_head hhead] at h
    cases hkind : unitKind page head with
    | frame =>
      rw [hkind] at h
      obtain ⟨frame, hframe, -, rfl, -⟩ := frameChunk_eq_unit h
      obtain ⟨hheader, hle, -, -⟩ := scanFrame_eq_ok hframe
      obtain ⟨-, hmin, -⟩ := scanHeader_eq_ok hheader
      have hmin' : 36 ≤ frame.length := hmin
      refine ⟨by omega, hle, ?_⟩
      rw [chunk_of_head ((slice?_take (Nat.zero_le 4) (by omega)).trans hhead), hkind]
      simp [UnitKind.read, frameChunk, scanFrame_take_length hframe]
    | page =>
      rw [hkind] at h
      obtain ⟨field, hfield, -, rfl, -⟩ := pageChunk_eq_unit h
      have hle := (slice?_eq_some.mp hfield).2.1
      refine ⟨by omega, hle, ?_⟩
      rw [chunk_of_head ((slice?_take (Nat.zero_le 4) (by omega)).trans hhead), hkind]
      simp [UnitKind.read, pageChunk, slice?_take, hfield]
    | unsupported =>
      rw [hkind] at h
      cases h
    | orphan =>
      rw [hkind] at h
      cases h
    | record sequence =>
      rw [hkind] at h
      obtain ⟨flags, data, hmax, hflags, hdata, -, rfl, -⟩ := recordChunk_eq_unit h
      have hle := (slice?_eq_some.mp hdata).2.1
      have hflags' : (x.take (5 + leNat head))[4]? = some flags := by
        rw [List.getElem?_take_of_lt (by omega), hflags]
      refine ⟨by omega, hle, ?_⟩
      rw [chunk_of_head ((slice?_take (Nat.zero_le 4) (by omega)).trans hhead), hkind]
      have hnot : ¬ maxRecordBytes < leNat head := by omega
      simp only [UnitKind.read, recordChunk, hnot, if_false, hflags',
        slice?_take (s := x) (show 5 ≤ 5 + leNat head by omega) le_rfl, hdata]
      simp

/-- The page scanner as a reader of units. -/
def pages : UnitReader UInt8 (Option UInt32) (List ScanItem) ScanErrorKind where
  next := chunk
  size_pos h := (chunk_eq_unit h).1
  size_le h := (chunk_eq_unit h).2.1
  unit_take {s x i n t} h := by
    have hown := chunk_append (chunk_eq_unit h).2.2 (x.drop n)
    rw [List.take_append_drop, h] at hown
    exact hown.symm
  unit_append y h := by
    rw [chunk_append (by simp [h]) y, h]
  bad_append y h := by
    rw [chunk_append (by simp [h]) y, h]

lemma next_pages (page : Option UInt32) (x : Bytes) : pages.next page x = chunk page x := rfl

/-- A unit is judged by at most the largest possible frame. -/
lemma pages_local : pages.Local maxFrameBytes := by
  intro page x
  show chunk page (x.take maxFrameBytes) = chunk page x
  have hbig : 5 + maxRecordBytes ≤ maxFrameBytes := by decide
  have hfour : 4 ≤ maxFrameBytes := by decide
  by_cases hlt : x.length < 4
  · rw [chunk_of_lt hlt, chunk_of_lt (by rw [List.length_take]; omega)]
  · have hhead := slice?_of_le (s := x) (Nat.zero_le 4) (by omega)
    rw [chunk_of_head hhead, chunk_of_head ((slice?_take (Nat.zero_le 4) hfour).trans hhead)]
    cases unitKind page ((x.take 4).drop 0) with
    | frame => simp only [UnitKind.read, frameChunk, scanFrame_take]
    | page => simp only [UnitKind.read, pageChunk, slice?_take (show 4 ≤ 8 by omega)
        (show 8 ≤ maxFrameBytes by decide)]
    | unsupported => rfl
    | orphan => rfl
    | record sequence =>
      simp only [UnitKind.read, recordChunk]
      split
      · rfl
      · rw [slice?_take (by omega) (by omega), List.getElem?_take_of_lt (by omega)]

/-! ## Frames, item by item -/

/-- The records of a region are found again. -/
lemma regionRecords_flatMap {records : List Record}
    (h : ∀ record ∈ records, record.data.length ≤ maxRecordBytes) {fuel : ℕ}
    (hfuel : records.length ≤ fuel) :
    regionRecords fuel (records.flatMap encodeRecord) = records := by
  induction records generalizing fuel with
  | nil =>
    cases fuel with
    | zero => rfl
    | succ fuel => rfl
  | cons record records ih =>
    obtain ⟨fuel, rfl⟩ := Nat.exists_eq_add_of_le' (Nat.one_le_of_lt hfuel)
    have hscan := scanRecord_encodeRecord (h record (by simp)) (records.flatMap encodeRecord)
    have hdrop : (encodeRecord record ++ records.flatMap encodeRecord).drop (checked record).length
        = records.flatMap encodeRecord := List.drop_left' (length_encodeRecord record)
    rw [List.flatMap_cons, regionRecords, hscan]
    simp only [hdrop]
    rw [ih (fun r hr => h r (by simp [hr])) (by simpa using hfuel)]
    rfl

lemma length_located (sequence : UInt32) (offset : ℕ) (records : List Record) :
    (located sequence offset records).length = records.length := by
  induction records generalizing offset with
  | nil => rfl
  | cons record records ih => simp [located, ih]

lemma located_shift (sequence : UInt32) (n offset : ℕ) (records : List Record) :
    (located sequence offset records).map (·.shift n) = located sequence (n + offset) records := by
  induction records generalizing offset with
  | nil => rfl
  | cons record records ih =>
    rw [located, located, List.map_cons, ih]
    simp only [ScanItem.shift, Nat.add_assoc]

/-- An accepted frame and the records in it. -/
lemma exists_frame_records {x : Bytes} {frame : FrameRef} (h : scanFrame x = .ok frame) :
    ∃ records : List Record, (∀ record ∈ records, record.data.length ≤ maxRecordBytes)
      ∧ frame.records = records.flatMap encodeRecord
      ∧ frame.items = .page frame.sequence 0 :: located frame.sequence headerBytes records
      ∧ frame.length = frameSize records
      ∧ ∃ tail, x.drop headerBytes = records.flatMap encodeRecord ++ tail := by
  obtain ⟨hheader, hle, hregion, records, hrecords, hall⟩ := scanFrame_eq_ok h
  obtain ⟨-, hmin, -⟩ := scanHeader_eq_ok hheader
  have hmin' : 36 ≤ frame.length := hmin
  have hsize := length_flatMap_encodeRecord records
  have hlength : frame.records.length = frame.length - 36 := by
    rw [hregion, List.length_drop, List.length_take, headerBytes]
    omega
  have hcount : records.length ≤ frame.records.length := by
    have hmul := length_mul_le_flatMap records
    rw [hrecords]
    unfold recordOverhead at hmul
    omega
  refine ⟨records, hall, hrecords, ?_, ?_, x.drop (frame.length - 4), ?_⟩
  · unfold FrameRef.items
    rw [hrecords] at hcount ⊢
    rw [regionRecords_flatMap hall hcount]
  · rw [← hsize, ← hrecords, hlength, frameOverhead, headerBytes]
    omega
  · rw [← hrecords, hregion, slice_append_drop x (by rw [headerBytes]; omega)]

namespace PageScanner

/-- Between units. -/
def between (bytes : Bytes) (offset : ℕ) (page : Option UInt32) : PageScanner :=
  ⟨bytes, offset, page, none, false⟩

lemma collect_succ_of_ok {s t : PageScanner} {item : ScanItem} (hfin : s.finished = false)
    (hlt : s.offset < s.bytes.length) (h : s.nextItem = (.ok item, t)) (fuel : ℕ) :
    s.collect (fuel + 1) = (.ok item :: (t.collect fuel).1, (t.collect fuel).2) := by
  have hnext : s.next = (some (.ok item), t) := by
    unfold next
    rw [if_neg (by simp [hfin]; omega), h]
  rw [collect, hnext]

lemma collect_succ_of_error {s : PageScanner} {error : ScanError} (hfin : s.finished = false)
    (hlt : s.offset < s.bytes.length) (h : s.nextItem = (.error error, s)) (fuel : ℕ) :
    s.collect (fuel + 1) = ([.error error], { s with finished := true }) := by
  have hnext : s.next = (some (.error error), { s with finished := true }) := by
    unfold next
    rw [if_neg (by simp [hfin]; omega), h]
  have hdone : ∀ k, ({ s with finished := true } : PageScanner).collect k
      = ([], { s with finished := true }) := by
    intro k
    cases k with
    | zero => rfl
    | succ k => simp [collect, next]
  rw [collect, hnext]
  simp only [hdone]

/-- The records of a validated frame are yielded one by one. -/
lemma collect_inFrame {bytes : Bytes} {offset : ℕ} {sequence : UInt32} {records : List Record}
    (hall : ∀ record ∈ records, record.data.length ≤ maxRecordBytes) (hne : records ≠ [])
    {tail : Bytes} (hbytes : bytes.drop offset = records.flatMap encodeRecord ++ tail)
    {stop : ℕ} (hstop : stop = offset + (records.flatMap encodeRecord).length + 4) (fuel : ℕ) :
    (⟨bytes, offset, some sequence, some stop, false⟩ : PageScanner).collect
        (fuel + records.length)
      = ((located sequence offset records).map .ok ++ ((between bytes stop none).collect fuel).1,
          ((between bytes stop none).collect fuel).2) := by
  induction records generalizing offset with
  | nil => exact absurd rfl hne
  | cons record records ih =>
    set s : PageScanner := ⟨bytes, offset, some sequence, some stop, false⟩ with hs
    have hscan : scanRecord (bytes.drop offset) = .ok (checked record) := by
      rw [hbytes, List.flatMap_cons, List.append_assoc]
      exact scanRecord_encodeRecord (hall record (by simp)) _
    have hlen := length_encodeRecord record
    have hlt : offset < bytes.length := by
      have hpos : 0 < (bytes.drop offset).length := by
        rw [hbytes, List.flatMap_cons, List.append_assoc, List.length_append, hlen, recordOverhead]
        omega
      rw [List.length_drop] at hpos
      omega
    rw [List.flatMap_cons, List.length_append, hlen, recordOverhead] at hstop
    rw [List.length_cons, ← Nat.add_assoc]
    by_cases hlast : records = []
    · have hitem : s.nextItem = (.ok (.record ⟨sequence, offset, offset + 5, record.flags,
          record.data, some (Checksum.checksum record.data)⟩), between bytes stop none) := by
        have hend : offset + (record.data.length + 9) = stop - 4 := by
          simp only [hlast, List.flatMap_nil, List.length_nil] at hstop
          omega
        simp only [nextItem, nextInFrame, hs, hscan, checked, hend, if_true]
        rfl
      rw [collect_succ_of_ok rfl hlt hitem, hlast]
      rfl
    · have hmore : offset + (record.data.length + 9) ≠ stop - 4 := by
        obtain ⟨r, rs, rfl⟩ := List.exists_cons_of_ne_nil hlast
        rw [List.flatMap_cons, List.length_append, length_encodeRecord, recordOverhead] at hstop
        omega
      have hitem : s.nextItem = (.ok (.record ⟨sequence, offset, offset + 5, record.flags,
          record.data, some (Checksum.checksum record.data)⟩),
          ⟨bytes, offset + (record.data.length + 9), some sequence, some stop, false⟩) := by
        simp only [nextItem, nextInFrame, hs, hscan, checked, hmore, if_false]
        rfl
      have hrest : bytes.drop (offset + (record.data.length + 9))
          = records.flatMap encodeRecord ++ tail := by
        rw [← List.drop_drop, hbytes, List.flatMap_cons, List.append_assoc]
        exact List.drop_left' hlen
      rw [collect_succ_of_ok rfl hlt hitem,
        ih (fun r hr => hall r (by simp [hr])) hlast hrest (by omega)]
      rfl

/-- The scanner between units sees the unit there. -/
lemma nextItem_between {bytes : Bytes} {offset : ℕ} {page : Option UInt32} {head : Bytes}
    (h : slice? (bytes.drop offset) 0 4 = some head) :
    (between bytes offset page).nextItem
      = match unitKind page head with
        | .frame => (between bytes offset page).nextFrame
        | .page => (between bytes offset page).nextPage
        | .unsupported => (.error ⟨offset, .unsupportedFormat head⟩, between bytes offset page)
        | .orphan => (.error ⟨offset, .invalidMagic⟩, between bytes offset page)
        | .record sequence => (between bytes offset page).nextRecord sequence head := by
  unfold nextItem unitKind
  simp only [between, h]
  split
  · rfl
  · split
    · rfl
    · split
      · rfl
      · cases page <;> rfl

/-- An accepted frame yields its page item and its records. -/
lemma collect_of_frame {bytes : Bytes} {offset : ℕ} {page : Option UInt32} {frame : FrameRef}
    (hlt : offset < bytes.length)
    (hnext : (between bytes offset page).nextItem = (between bytes offset page).nextFrame)
    (hframe : scanFrame (bytes.drop offset) = .ok frame) (fuel : ℕ) :
    frame.items.length ≤ frame.length
      ∧ (between bytes offset page).collect (fuel + frame.items.length)
        = (frame.items.map (fun item => .ok (item.shift offset))
              ++ ((between bytes (offset + frame.length) none).collect fuel).1,
            ((between bytes (offset + frame.length) none).collect fuel).2) := by
  obtain ⟨records, hall, hregion, hitems, hsize, tail, htail⟩ := exists_frame_records hframe
  have hbody := length_flatMap_encodeRecord records
  have hmul := length_mul_le_flatMap records
  have hover : frameOverhead = 36 := rfl
  rw [recordOverhead] at hmul
  rw [hitems, List.length_cons, length_located]
  refine ⟨by omega, ?_⟩
  rw [show fuel + (records.length + 1) = fuel + records.length + 1 by omega]
  by_cases hempty : records = []
  · have hitem : (between bytes offset page).nextItem = (.ok (.page frame.sequence offset),
        between bytes (offset + frame.length) none) := by
      rw [hnext, nextFrame]
      simp [between, hframe, hregion, hempty]
    rw [collect_succ_of_ok rfl hlt hitem, hempty]
    rfl
  · have hne : records.flatMap encodeRecord ≠ [] := by
      intro hnil
      rw [hnil, List.length_nil] at hmul
      exact hempty (List.length_eq_zero_iff.mp (by omega))
    have hitem : (between bytes offset page).nextItem = (.ok (.page frame.sequence offset),
        ⟨bytes, offset + headerBytes, some frame.sequence, some (offset + frame.length), false⟩) := by
      rw [hnext, nextFrame]
      simp only [between, hframe, hregion, hne, if_false]
    have hrest : bytes.drop (offset + headerBytes) = records.flatMap encodeRecord ++ tail := by
      rw [← List.drop_drop, htail]
    have hstop : offset + frame.length
        = offset + headerBytes + (records.flatMap encodeRecord).length + 4 := by
      rw [hsize, ← hbody, frameOverhead]
      omega
    rw [collect_succ_of_ok rfl hlt hitem, collect_inFrame hall hempty hrest hstop,
      ← located_shift frame.sequence offset headerBytes records]
    simp only [List.map_cons, List.cons_append, ScanItem.shift, Nat.add_zero, List.map_map,
      Function.comp_def]

/-- Where a unit is found, exactly its items are yielded. -/
lemma collect_of_unit {bytes : Bytes} {offset n : ℕ} {page next : Option UInt32}
    {items : List ScanItem} (hlt : offset < bytes.length)
    (h : chunk page (bytes.drop offset) = .unit items n next) (fuel : ℕ) :
    items.length ≤ n ∧ (between bytes offset page).collect (fuel + items.length)
      = (items.map (fun item => .ok (item.shift offset))
            ++ ((between bytes (offset + n) next).collect fuel).1,
          ((between bytes (offset + n) next).collect fuel).2) := by
  have hlong : ¬ (bytes.drop offset).length < 4 := by
    intro hshort
    rw [chunk_of_lt hshort] at h
    cases h
  obtain ⟨head, hhead⟩ : ∃ head, slice? (bytes.drop offset) 0 4 = some head :=
    ⟨_, slice?_of_le (Nat.zero_le 4) (by omega)⟩
  have hnext := @nextItem_between _ bytes offset page head hhead
  rw [chunk_of_head hhead] at h
  cases hkind : unitKind page head with
  | frame =>
    rw [hkind] at h hnext
    obtain ⟨frame, hframe, rfl, rfl, rfl⟩ := frameChunk_eq_unit h
    exact collect_of_frame hlt hnext hframe fuel
  | page =>
    rw [hkind] at h hnext
    obtain ⟨field, hfield, rfl, rfl, rfl⟩ := pageChunk_eq_unit h
    have hitem : (between bytes offset page).nextItem
        = (.ok (.page (UInt32.ofNat (leNat field)) offset),
          between bytes (offset + 8) (some (UInt32.ofNat (leNat field)))) := by
      rw [hnext]
      simp [nextPage, between, hfield]
    refine ⟨by simp, ?_⟩
    rw [List.length_singleton, collect_succ_of_ok rfl hlt hitem]
    rfl
  | unsupported =>
    rw [hkind] at h
    cases h
  | orphan =>
    rw [hkind] at h
    cases h
  | record sequence =>
    rw [hkind] at h hnext
    obtain ⟨flags, data, hmax, hflags, hdata, rfl, rfl, rfl⟩ := recordChunk_eq_unit h
    have hpage := unitKind_eq_record hkind
    have hnot : ¬ maxRecordBytes < leNat head := by omega
    have hitem : (between bytes offset page).nextItem
        = (.ok (.record ⟨sequence, offset, offset + 5, flags, data, none⟩),
          between bytes (offset + (5 + leNat head)) page) := by
      rw [hnext]
      simp only [nextRecord, between, hflags, hdata, hnot, if_false]
    refine ⟨by simp; omega, ?_⟩
    rw [List.length_singleton, collect_succ_of_ok rfl hlt hitem, hpage]
    rfl

/-- Where no unit is found, iteration ends with the reason. -/
lemma collect_of_none {bytes : Bytes} {offset : ℕ} {page : Option UInt32} {kind : ScanErrorKind}
    (hlt : offset < bytes.length)
    (h : (chunk page (bytes.drop offset) = .more ∧ kind = .incompleteTail)
      ∨ chunk page (bytes.drop offset) = .bad kind) (fuel : ℕ) :
    (between bytes offset page).collect (fuel + 1)
      = ([.error ⟨offset, kind⟩], { between bytes offset page with finished := true }) := by
  refine collect_succ_of_error rfl hlt ?_ fuel
  by_cases hshort : (bytes.drop offset).length < 4
  · rw [chunk_of_lt hshort] at h
    simp only [true_and, reduceCtorEq, or_false] at h
    simp only [nextItem, between, (slice?_eq_none (Nat.zero_le 4)).mpr hshort, h]
    rfl
  obtain ⟨head, hhead⟩ : ∃ head, slice? (bytes.drop offset) 0 4 = some head :=
    ⟨_, slice?_of_le (Nat.zero_le 4) (by omega)⟩
  rw [chunk_of_head hhead] at h
  rw [nextItem_between hhead]
  cases hkind : unitKind page head with
  | frame =>
    rw [hkind] at h
    simp only [UnitKind.read, frameChunk] at h
    simp only [nextFrame, between]
    cases hframe : scanFrame (bytes.drop offset) with
    | error error =>
      simp only [hframe] at h
      by_cases hcut : error = .incomplete
      · simp only [hcut, if_true, true_and, reduceCtorEq, or_false] at h
        simp only [hcut, if_true, h]
        rfl
      · simp only [hcut, if_false, reduceCtorEq, false_and, false_or, Next.bad.injEq] at h
        simp only [hcut, if_false, h]
        rfl
    | ok frame => simp [hframe] at h
  | page =>
    rw [hkind] at h
    simp only [UnitKind.read, pageChunk] at h
    simp only [nextPage, between]
    cases hfield : slice? (bytes.drop offset) 4 8 with
    | none =>
      simp only [hfield, true_and, reduceCtorEq, or_false] at h
      simp only [h]
      rfl
    | some field => simp [hfield] at h
  | unsupported =>
    rw [hkind] at h
    simp only [UnitKind.read, reduceCtorEq, false_and, false_or, Next.bad.injEq] at h
    rw [h]
  | orphan =>
    rw [hkind] at h
    simp only [UnitKind.read, reduceCtorEq, false_and, false_or, Next.bad.injEq] at h
    rw [h]
  | record sequence =>
    rw [hkind] at h
    simp only [UnitKind.read, recordChunk] at h
    simp only [nextRecord, between]
    split at h
    · next hlarge =>
      simp only [reduceCtorEq, false_and, false_or, Next.bad.injEq] at h
      rw [if_pos hlarge, ← h]
      rfl
    · next hlarge =>
      rw [if_neg hlarge]
      split at h
      · next => simp at h
      · next hcut =>
        simp only [true_and, reduceCtorEq, or_false] at h
        split
        · rw [h]
          rfl
        · next flags hflags =>
          split
          · rw [h]
            rfl
          · next data hdata => exact absurd hdata (hcut flags data hflags)

/-- The error that ends a reading. -/
def endError (consumed : ℕ) : Ending ScanErrorKind → List (Except ScanError ScanItem)
  | .clean => []
  | .more => [.error ⟨consumed, .incompleteTail⟩]
  | .bad kind => [.error ⟨consumed, kind⟩]

/-- The items of a reading, at their places. -/
def unitItems (units : List (ℕ × List ScanItem)) : List ScanItem :=
  units.flatMap fun u => u.2.map (·.shift u.1)

omit [Checksum] in
lemma unitItems_append (us vs : List (ℕ × List ScanItem)) :
    unitItems (us ++ vs) = unitItems us ++ unitItems vs :=
  List.flatMap_append

/-- Iterating from a unit boundary yields the units from there on. -/
lemma collect_between (bytes : Bytes) (page : Option UInt32) (x : Bytes) :
    ∀ offset fuel : ℕ, offset ≤ bytes.length → x = bytes.drop offset → x.length < fuel →
      (between bytes offset page).collect fuel
        = ((unitItems ((pages.run page x).shift offset).units).map .ok
            ++ endError (offset + (pages.run page x).consumed) (pages.run page x).ending,
          ⟨bytes, offset + (pages.run page x).consumed, (pages.run page x).state, none,
            (pages.run page x).ending ≠ .clean⟩) := by
  induction page, x using run_induction (R := pages) with
  | nil page =>
    intro offset fuel hle hx hfuel
    obtain ⟨fuel, rfl⟩ := Nat.exists_eq_add_of_le' (Nat.one_le_of_lt hfuel)
    have hend : offset = bytes.length := by
      have := congrArg List.length hx
      rw [List.length_drop, List.length_nil] at this
      omega
    have hnext : (between bytes offset page).next = (none, between bytes offset page) := by
      unfold next
      rw [if_pos (by simp [between, hend])]
    rw [collect, hnext]
    simp [unitItems, endError, between, Scan.shift]
  | more page x hx hmore =>
    intro offset fuel hle hdrop hfuel
    obtain ⟨fuel, rfl⟩ := Nat.exists_eq_add_of_le' (Nat.one_le_of_lt hfuel)
    have hlt : offset < bytes.length := by
      have := List.length_pos_iff.mpr hx
      rw [hdrop, List.length_drop] at this
      omega
    subst hdrop
    rw [run_of_more hx hmore, collect_of_none hlt (.inl ⟨hmore, rfl⟩)]
    simp [unitItems, endError, between, Scan.shift]
  | bad page x kind hx hbad =>
    intro offset fuel hle hdrop hfuel
    obtain ⟨fuel, rfl⟩ := Nat.exists_eq_add_of_le' (Nat.one_le_of_lt hfuel)
    have hlt : offset < bytes.length := by
      have := List.length_pos_iff.mpr hx
      rw [hdrop, List.length_drop] at this
      omega
    subst hdrop
    rw [run_of_bad hx hbad, collect_of_none hlt (.inr hbad)]
    simp [unitItems, endError, between, Scan.shift]
  | unit page x items n next hunit ih =>
    intro offset fuel hle hdrop hfuel
    have hpos := pages.size_pos hunit
    have hsize := pages.size_le hunit
    have hlen : x.length = bytes.length - offset := by rw [hdrop, List.length_drop]
    have hcount := (collect_of_unit (show offset < bytes.length by omega) (hdrop ▸ hunit) 0).1
    obtain ⟨fuel, rfl⟩ := Nat.exists_eq_add_of_le' (show items.length ≤ fuel by omega)
    have hstep := (collect_of_unit (show offset < bytes.length by omega) (hdrop ▸ hunit) fuel).2
    rw [hstep, ih (offset + n) fuel (by omega) (by rw [hdrop, List.drop_drop])
      (by rw [List.length_drop]; omega), run_of_unit hunit]
    simp only [Scan.prepend, Scan.shift, unitItems, List.map_append, List.map_map,
      Function.comp_def, List.map_cons, List.map_nil, List.flatMap_append, List.flatMap_cons,
      List.flatMap_nil, List.append_nil, Nat.add_zero, Nat.add_assoc, List.append_assoc,
      List.map_flatMap, List.flatMap_map]
    rfl

/-- Iterating a scanner yields the items of the units and the error that ended the reading, and
leaves the scanner at the last unit boundary. -/
theorem items_resume (bytes : Bytes) (page : Option UInt32) :
    (resume bytes page).items
      = ((unitItems (pages.run page bytes).units).map .ok
            ++ endError (pages.run page bytes).consumed (pages.run page bytes).ending,
          ⟨bytes, (pages.run page bytes).consumed, (pages.run page bytes).state, none,
            (pages.run page bytes).ending ≠ .clean⟩) := by
  have h := collect_between bytes page bytes 0 (bytes.length + 2) (Nat.zero_le _) rfl (by omega)
  rw [Scan.shift_zero, Nat.zero_add] at h
  exact h

end PageScanner

end EditChain.Store
