import EditChain.Store.Frame
import EditChain.Lib.Fallible

/-!
# EC03 frames read back what was written

A record or frame is recognized exactly when the input starts with its encoding, and a frame that
is cut anywhere is reported as incomplete. What `scan_frame` decides depends only on the declared
frame, never on the bytes that follow it.
-/

namespace EditChain.Store

open ByteString Fallible

variable [Checksum]

/-! ## Fixed-width fields -/

omit [Checksum] in
lemma array_of_le {n offset : ℕ} {bytes : Bytes} (h : offset + n ≤ bytes.length) :
    array n bytes offset = .ok ((bytes.take (offset + n)).drop offset) := by
  unfold array
  rw [slice?_of_le (by omega) h]
  rfl

omit [Checksum] in
lemma array_of_lt {n offset : ℕ} {bytes : Bytes} (h : bytes.length < offset + n) :
    array n bytes offset = .error .incomplete := by
  unfold array
  rw [(slice?_eq_none (by omega)).mpr h]
  rfl

omit [Checksum] in
/-- A field inside the input is not changed by what follows. -/
lemma array_append {n offset : ℕ} {x : Bytes} (h : offset + n ≤ x.length) (y : Bytes) :
    array n (x ++ y) offset = array n x offset := by
  unfold array
  rw [slice?_append h]

omit [Checksum] in
/-- A field of a concatenation that covers exactly its middle part. -/
lemma array_middle (a b c : Bytes) {n offset : ℕ} (hoffset : offset = a.length)
    (hn : n = b.length) : array n (a ++ (b ++ c)) offset = .ok b := by
  unfold array
  rw [slice?_middle a b c hoffset (by omega)]
  rfl

/-! ## Records -/

@[simp] lemma length_encodeRecord (record : Record) :
    (encodeRecord record).length = record.data.length + recordOverhead := by
  simp only [encodeRecord, List.length_append, length_leBytes, List.length_singleton,
    recordOverhead]
  omega

/-- The checked view of a record. -/
def checked (record : Record) : CheckedRecord :=
  ⟨record.flags, record.data, Checksum.checksum record.data, record.data.length + 9⟩

omit [Checksum] in
lemma maxRecordBytes_lt : maxRecordBytes < 256 ^ 4 := by
  decide

omit [Checksum] in
lemma ofNat_leNat_checksum (c : UInt32) : UInt32.ofNat (leNat (leBytes 4 c.toNat)) = c := by
  have hc : c.toNat < 256 ^ 4 := c.toNat_lt
  rw [leNat_leBytes hc, UInt32.ofNat_toNat]

/-- An encoded record is read back, whatever follows it. -/
lemma scanRecord_encodeRecord {record : Record} (h : record.data.length ≤ maxRecordBytes)
    (rest : Bytes) : scanRecord (encodeRecord record ++ rest) = .ok (checked record) := by
  have hlen : leNat (leBytes 4 record.data.length) = record.data.length :=
    leNat_leBytes (lt_of_le_of_lt h maxRecordBytes_lt)
  set sum := leBytes 4 (Checksum.checksum record.data).toNat with hsum
  have hbytes : encodeRecord record ++ rest
      = leBytes 4 record.data.length ++ ([record.flags] ++ (record.data ++ (sum ++ rest))) := by
    simp only [encodeRecord, List.append_assoc, hsum]
  have hdata : slice? (encodeRecord record ++ rest) 5 (record.data.length + 5)
      = some record.data := by
    rw [hbytes, ← List.append_assoc]
    exact slice?_middle _ _ _ (by simp) (by simp; omega)
  have hflags : (encodeRecord record ++ rest)[4]? = some record.flags := by
    rw [hbytes, List.getElem?_append_right (by simp)]
    simp
  have hstored : slice? (encodeRecord record ++ rest) (record.data.length + 5)
      (record.data.length + 5 + 4) = some sum := by
    rw [hbytes, ← List.append_assoc, ← List.append_assoc]
    exact slice?_middle _ _ _ (by simp; omega) (by simp [hsum]; omega)
  have hfirst : array 4 (encodeRecord record ++ rest) 0 = .ok (leBytes 4 record.data.length) := by
    rw [hbytes, ← List.nil_append (leBytes 4 record.data.length ++ _)]
    exact array_middle [] _ _ rfl (by simp)
  have hmax : ¬ maxRecordBytes < record.data.length := by omega
  unfold scanRecord
  simp only [hfirst, bind, Except.bind, hlen, hmax, if_false, hdata, hflags, hstored, okOr,
    ofNat_leNat_checksum, hsum, ne_eq, not_true_eq_false, pure, Except.pure, checked]

omit [Checksum] in
lemma okOr_eq_ok {α : Type} {option : Option α} {error : FrameError} {a : α} :
    okOr option error = .ok a ↔ option = some a := by
  cases option <;> simp [okOr]

omit [Checksum] in
lemma array_eq_ok {n offset : ℕ} {bytes field : Bytes} :
    array n bytes offset = .ok field
      ↔ offset + n ≤ bytes.length ∧ field = (bytes.take (offset + n)).drop offset := by
  unfold array
  rw [okOr_eq_ok, slice?_eq_some]
  simp

/-- Only encoded records are read. -/
lemma scanRecord_eq_ok {bytes : Bytes} {r : CheckedRecord} (h : scanRecord bytes = .ok r) :
    ∃ record rest, bytes = encodeRecord record ++ rest ∧ r = checked record
      ∧ record.data.length ≤ maxRecordBytes := by
  unfold scanRecord at h
  simp only [bind_eq_ok, guard_eq_ok, pure_eq_ok, okOr_eq_ok, array_eq_ok, slice?_eq_some,
    List.drop_zero, Nat.zero_add] at h
  obtain ⟨size, ⟨hfour, rfl⟩, hmax, data, ⟨-, hdata, rfl⟩, flags, hflags, stored,
    ⟨-, hstored, rfl⟩, hsum, rfl⟩ := h
  set length := leNat (bytes.take 4) with hlength
  set data := (bytes.take (length + 5)).drop 5 with hdatadef
  set stored := (bytes.take (length + 5 + 4)).drop (length + 5) with hstoreddef
  simp only [ne_eq, not_not] at hsum
  have hdatalen : data.length = length := by
    rw [hdatadef, List.length_drop, List.length_take]
    omega
  have hstoredlen : stored.length = 4 := by
    rw [hstoreddef, List.length_drop, List.length_take]
    omega
  have hfirst : leBytes 4 length = bytes.take 4 := by
    have hfield : (bytes.take 4).length = 4 := by simp [hfour]
    rw [← leBytes_leNat (bytes.take 4), hfield]
  have hsuffix : leBytes 4 (Checksum.checksum data).toNat = stored := by
    have hlt := leNat_lt stored
    rw [hstoredlen] at hlt
    rw [hsum, UInt32.toNat_ofNat_of_lt' hlt]
    have hround := leBytes_leNat stored
    rwa [hstoredlen] at hround
  refine ⟨⟨flags, data⟩, bytes.drop (length + 9), ?_, ?_, show data.length ≤ _ by omega⟩
  · -- the four fields are consecutive slices of the input
    have hflag : [flags] = (bytes.take 5).drop 4 := by
      obtain ⟨hlt, hget⟩ := List.getElem?_eq_some_iff.mp hflags
      rw [List.take_succ_eq_append_getElem hlt, List.drop_append_of_le_length (by simp [hfour]),
        hget]
      simp
    simp only [encodeRecord, hdatalen, hfirst, hsuffix, hflag, List.append_assoc]
    rw [hdatadef, hstoreddef]
    rw [slice_append_drop bytes (by omega), slice_append_drop bytes (by omega),
      slice_append_drop bytes (by omega), List.take_append_drop]
  · simp only [checked, hsum, hdatalen, hstoreddef]

/-- A region is a sequence of `count` records exactly when it starts with their encodings. -/
lemma scanRecords_eq_ok {count : ℕ} {bytes rest : Bytes} :
    scanRecords count bytes = .ok rest
      ↔ ∃ records : List Record, records.length = count
          ∧ bytes = records.flatMap encodeRecord ++ rest
          ∧ ∀ record ∈ records, record.data.length ≤ maxRecordBytes := by
  induction count generalizing bytes with
  | zero =>
    simp only [scanRecords, Except.ok.injEq, List.length_eq_zero_iff]
    exact ⟨fun h => ⟨[], rfl, by simp [h], by simp⟩, by
      rintro ⟨_, rfl, h, -⟩
      simpa using h⟩
  | succ count ih =>
    simp only [scanRecords, bind_eq_ok, okOr_eq_ok]
    constructor
    · rintro ⟨r, hr, tail, htail, hrest⟩
      obtain ⟨record, after, rfl, rfl, hsize⟩ := scanRecord_eq_ok hr
      have hafter : tail = after := by
        unfold from? at htail
        split at htail
        · have hdrop : (encodeRecord record ++ after).drop (checked record).length = after :=
            List.drop_left' (length_encodeRecord record)
          rw [← hdrop]
          exact (Option.some.inj htail).symm
        · cases htail
      rw [hafter] at hrest
      obtain ⟨records, hcount, hregion, hall⟩ := ih.mp hrest
      refine ⟨record :: records, by simp [hcount], by simp [hregion], ?_⟩
      simpa [hsize] using hall
    · rintro ⟨records, hcount, rfl, hall⟩
      obtain ⟨record, records, rfl⟩ := List.exists_cons_of_length_eq_add_one hcount
      have hsize := hall record (by simp)
      refine ⟨checked record, ?_, records.flatMap encodeRecord ++ rest, ?_, ?_⟩
      · rw [List.flatMap_cons, List.append_assoc]
        exact scanRecord_encodeRecord hsize _
      · have hlen : (checked record).length = (encodeRecord record).length := by
          rw [length_encodeRecord]
          rfl
        unfold from?
        rw [List.flatMap_cons, List.append_assoc, hlen, if_pos (by simp), List.drop_left]
      · exact ih.mpr ⟨records, by simpa using hcount, rfl, fun r hr => hall r (by simp [hr])⟩

/-! ## Headers -/

/-- The header is all that its check looks at. -/
lemma scanHeader_append {x : Bytes} (h : headerBytes ≤ x.length) (y : Bytes) :
    scanHeader (x ++ y) = scanHeader x := by
  have hfield : ∀ {n offset : ℕ}, offset + n ≤ 32 → array n (x ++ y) offset = array n x offset :=
    fun hn => array_append (hn.trans h) y
  unfold scanHeader
  rw [hfield (by omega), hfield (by omega), hfield (by omega), hfield (by omega),
    hfield (by omega), hfield (by omega), slice?_append h]

/-- Fewer than four bytes are not enough to tell a frame. -/
lemma scanHeader_of_lt_four {x : Bytes} (h : x.length < 4) : scanHeader x = .error .incomplete := by
  unfold scanHeader
  rw [array_of_lt (by omega)]
  rfl

/-- A frame that ends inside its header is incomplete. -/
lemma scanHeader_of_lt {x : Bytes} (hmagic : slice? x 0 4 = some magic)
    (h : x.length < headerBytes) : scanHeader x = .error .incomplete := by
  have hslice : slice? x 0 headerBytes = none := (slice?_eq_none (by omega)).mpr h
  unfold scanHeader array
  rw [Nat.zero_add, hmagic, hslice]
  simp [okOr, bind, Except.bind]

/-- The declared length is within the bounds of a frame, and there is a whole header. -/
lemma scanHeader_eq_ok {x : Bytes} {length : ℕ} (h : scanHeader x = .ok length) :
    headerBytes ≤ x.length ∧ frameOverhead ≤ length ∧ length ≤ maxFrameBytes := by
  unfold scanHeader at h
  simp only [bind_eq_ok, guard_eq_ok, pure_eq_ok, okOr_eq_ok, slice?_eq_some] at h
  obtain ⟨_, -, -, _, ⟨-, hheader, -⟩, _, -, _, -, -, _, -, _, -, _, -, -, _, -, hbound, rfl⟩ := h
  exact ⟨hheader, by omega, by omega⟩

/-! ## Frames -/

/-- Once the declared frame is there, what follows it does not matter. -/
lemma scanFrame_append_of_header {x : Bytes} {length : ℕ} (h : scanHeader x = .ok length)
    (hle : length ≤ x.length) (y : Bytes) : scanFrame (x ++ y) = scanFrame x := by
  obtain ⟨hheader, -, -⟩ := scanHeader_eq_ok h
  have hheader' : 32 ≤ x.length := hheader
  unfold scanFrame
  rw [scanHeader_append hheader, h]
  simp only [bind, Except.bind]
  rw [slice?_append hle, array_append (by omega), array_append (by omega)]

/-- Without its declared bytes a frame is incomplete. -/
lemma scanFrame_of_lt {x : Bytes} {length : ℕ} (h : scanHeader x = .ok length)
    (hlt : x.length < length) : scanFrame x = .error .incomplete := by
  have hslice : slice? x 0 length = none := (slice?_eq_none (by omega)).mpr hlt
  unfold scanFrame
  simp only [h, hslice, bind, Except.bind, okOr]

lemma scanFrame_of_header_error {x : Bytes} {error : FrameError} (h : scanHeader x = .error error) :
    scanFrame x = .error error := by
  unfold scanFrame
  rw [h]
  rfl

/-- A verdict other than `Incomplete` is final. -/
lemma scanFrame_append {x : Bytes} (hmagic : slice? x 0 4 = some magic)
    (h : scanFrame x ≠ .error .incomplete) (y : Bytes) : scanFrame (x ++ y) = scanFrame x := by
  by_cases hheader : headerBytes ≤ x.length
  · cases hscan : scanHeader x with
    | error error =>
      rw [scanFrame_of_header_error hscan,
        scanFrame_of_header_error ((scanHeader_append hheader y).trans hscan)]
    | ok length =>
      by_cases hle : length ≤ x.length
      · exact scanFrame_append_of_header hscan hle y
      · exact absurd (scanFrame_of_lt hscan (by omega)) h
  · exact absurd (scanFrame_of_header_error (scanHeader_of_lt hmagic (by omega))) h

/-- A frame is judged by at most its largest possible size. -/
lemma scanFrame_take (x : Bytes) : scanFrame (x.take maxFrameBytes) = scanFrame x := by
  by_cases hlong : maxFrameBytes ≤ x.length
  · have hlen : (x.take maxFrameBytes).length = maxFrameBytes := by simp [hlong]
    have hheader : headerBytes ≤ (x.take maxFrameBytes).length := by
      rw [hlen]
      decide
    have hsplit := List.take_append_drop maxFrameBytes x
    cases hscan : scanHeader (x.take maxFrameBytes) with
    | error error =>
      have hwhole := (scanHeader_append hheader (x.drop maxFrameBytes)).trans hscan
      rw [hsplit] at hwhole
      rw [scanFrame_of_header_error hscan, scanFrame_of_header_error hwhole]
    | ok length =>
      obtain ⟨-, -, hmax⟩ := scanHeader_eq_ok hscan
      have hwhole := scanFrame_append_of_header hscan (by omega) (x.drop maxFrameBytes)
      rw [hsplit] at hwhole
      exact hwhole.symm
  · rw [List.take_of_length_le (by omega)]

/-- What an accepted frame is. -/
lemma scanFrame_eq_ok {x : Bytes} {frame : FrameRef} (h : scanFrame x = .ok frame) :
    scanHeader x = .ok frame.length ∧ frame.length ≤ x.length
      ∧ frame.records = (x.take (frame.length - 4)).drop headerBytes
      ∧ ∃ records : List Record, frame.records = records.flatMap encodeRecord
          ∧ ∀ record ∈ records, record.data.length ≤ maxRecordBytes := by
  unfold scanFrame at h
  simp only [bind_eq_ok, guard_eq_ok, pure_eq_ok, okOr_eq_ok, slice?_eq_some] at h
  obtain ⟨length, hheader, _, ⟨-, hle, rfl⟩, _, ⟨-, -, -⟩, _, -, -, _, ⟨hstop, hbody, rfl⟩, _, -, -,
    rest, hrecords, hrest, _, -, -, rfl⟩ := h
  refine ⟨hheader, hle, ?_, ?_⟩
  · simp only [List.drop_zero]
    rw [List.take_take, Nat.min_eq_left (by omega)]
  · obtain ⟨records, -, hregion, hall⟩ := scanRecords_eq_ok.mp hrecords
    simp only [ne_eq, not_not] at hrest
    rw [hrest, List.append_nil] at hregion
    exact ⟨records, hregion, hall⟩

/-- An accepted frame is judged by its own bytes. -/
lemma scanFrame_take_length {x : Bytes} {frame : FrameRef} (h : scanFrame x = .ok frame) :
    scanFrame (x.take frame.length) = .ok frame := by
  obtain ⟨hheader, hle, -, -⟩ := scanFrame_eq_ok h
  obtain ⟨-, hmin, -⟩ := scanHeader_eq_ok hheader
  have hlen : (x.take frame.length).length = frame.length := by simp [hle]
  have hsplit := List.take_append_drop frame.length x
  have hlong : headerBytes ≤ (x.take frame.length).length := by
    rw [hlen]
    exact le_trans (by decide) hmin
  have hown := scanHeader_append hlong (x.drop frame.length)
  rw [hsplit, hheader] at hown
  have hwhole := scanFrame_append_of_header hown.symm (by omega) (x.drop frame.length)
  rw [hsplit, h] at hwhole
  exact hwhole.symm

/-! ## Encoding -/

/-- The size of the frame that holds `records`. -/
def frameSize (records : List Record) : ℕ :=
  frameOverhead + (records.map fun record => record.data.length + recordOverhead).sum

/-- The frame that holds `records`. -/
def frameBytes (sequence : UInt32) (records : List Record) : Bytes :=
  sealBytes (sealBytes (headerFields (frameSize records) records.length sequence)
    ++ records.flatMap encodeRecord)

/-- Records that can be written as one frame. -/
def Fits (records : List Record) : Prop :=
  (∀ record ∈ records, record.data.length ≤ maxRecordBytes) ∧ frameSize records ≤ maxFrameBytes

instance (records : List Record) : Decidable (Fits records) :=
  inferInstanceAs (Decidable (_ ∧ _))

omit [Checksum] in
lemma length_le_frameSize (records : List Record) : records.length ≤ frameSize records := by
  unfold frameSize
  induction records with
  | nil => simp
  | cons record records ih =>
    simp only [List.map_cons, List.sum_cons, List.length_cons]
    unfold recordOverhead at *
    omega

omit [Checksum] in
lemma measure_eq (records : List Record) (length count : ℕ) (hcount : count < 2 ^ 32) :
    measure records length count
      = if (∀ record ∈ records, record.data.length ≤ maxRecordBytes)
            ∧ count + records.length < 2 ^ 32 then
          .ok (length + (records.map fun record => record.data.length + recordOverhead).sum,
            count + records.length)
        else .error .length := by
  induction records generalizing length count with
  | nil =>
    rw [if_pos ⟨by simp, by simpa using hcount⟩]
    rfl
  | cons record records ih =>
    simp only [measure, List.forall_mem_cons, List.length_cons, List.map_cons, List.sum_cons]
    by_cases hsize : maxRecordBytes < record.data.length
    · rw [if_pos hsize, if_neg (by omega)]
    · by_cases hlast : 2 ^ 32 ≤ count + 1
      · rw [if_neg hsize, if_pos hlast, if_neg (by omega)]
      · rw [if_neg hsize, if_neg hlast, ih _ _ (by omega)]
        congr 1
        · simp only [eq_iff_iff]
          have hle : record.data.length ≤ maxRecordBytes := by omega
          simp only [hle, true_and, Nat.add_assoc, Nat.add_comm 1]
        · simp only [Except.ok.injEq, Prod.mk.injEq]
          omega

/-- Encoding succeeds exactly on records that fit, and writes their frame. -/
lemma encodeRecords_eq (sequence : UInt32) (records : List Record) :
    encodeRecords sequence records
      = if Fits records then .ok (frameBytes sequence records) else .error .length := by
  have hmax : maxFrameBytes < 2 ^ 32 := by decide
  have hlen := length_le_frameSize records
  unfold encodeRecords
  rw [measure_eq records _ 0 (by decide)]
  simp only [Nat.zero_add]
  by_cases hall : ∀ record ∈ records, record.data.length ≤ maxRecordBytes
  · by_cases hcount : records.length < 2 ^ 32
    · rw [if_pos ⟨hall, hcount⟩]
      change (if 2 ^ 32 ≤ frameSize records then _ else if maxFrameBytes < frameSize records then _
        else _) = _
      by_cases hfit : frameSize records ≤ maxFrameBytes
      · rw [if_neg (by omega), if_neg (by omega), if_pos ⟨hall, hfit⟩]
        rfl
      · rw [if_neg (fun h : Fits records => hfit h.2)]
        split
        · rfl
        · rw [if_pos (by omega)]
          rfl
    · rw [if_neg (by omega), if_neg (fun h : Fits records => by have := h.2; omega)]
      rfl
  · rw [if_neg (fun h => hall h.1), if_neg (fun h : Fits records => hall h.1)]
    rfl

@[simp] lemma length_sealBytes (bytes : Bytes) : (sealBytes bytes).length = bytes.length + 4 := by
  simp [sealBytes]

omit [Checksum] in
@[simp] lemma length_headerFields (length count : ℕ) (sequence : UInt32) :
    (headerFields length count sequence).length = 28 := by
  simp [headerFields, magic]

lemma length_flatMap_encodeRecord (records : List Record) :
    frameOverhead + (records.flatMap encodeRecord).length = frameSize records := by
  unfold frameSize
  induction records with
  | nil => rfl
  | cons record records ih =>
    simp only [List.flatMap_cons, List.length_append, length_encodeRecord, List.map_cons,
      List.sum_cons]
    omega

lemma length_mul_le_flatMap (records : List Record) :
    records.length * recordOverhead ≤ (records.flatMap encodeRecord).length := by
  induction records with
  | nil => simp
  | cons record records ih =>
    simp only [List.flatMap_cons, List.length_append, length_encodeRecord, List.length_cons,
      Nat.succ_mul]
    omega

@[simp] lemma length_frameBytes (sequence : UInt32) (records : List Record) :
    (frameBytes sequence records).length = frameSize records := by
  rw [← length_flatMap_encodeRecord]
  simp only [frameBytes, length_sealBytes, List.length_append, length_headerFields, frameOverhead,
    headerBytes]
  omega

/-- The fields of a written header. -/
lemma array_header (length count : ℕ) (sequence : UInt32) (rest : Bytes) :
    let bytes := sealBytes (headerFields length count sequence) ++ rest
    array 4 bytes 0 = .ok magic
      ∧ slice? bytes 0 headerBytes = some (sealBytes (headerFields length count sequence))
      ∧ array 4 bytes 28
          = .ok (leBytes 4 (Checksum.checksum (headerFields length count sequence)).toNat)
      ∧ array 2 bytes 4 = .ok (leBytes 2 ec03FormatVersion)
      ∧ array 2 bytes 6 = .ok (leBytes 2 32)
      ∧ array 4 bytes 24 = .ok (leBytes 4 0)
      ∧ array 4 bytes 8 = .ok (leBytes 4 length)
      ∧ array 4 bytes 12 = .ok (leBytes 4 count)
      ∧ array 8 bytes 16 = .ok (leBytes 8 sequence.toNat) := by
  simp [array, slice?, okOr, sealBytes, headerFields, magic, leBytes, headerBytes]

/-- The header of a written frame declares its size. -/
lemma scanHeader_headerFields {length : ℕ} (hmin : frameOverhead ≤ length)
    (hmax : length ≤ maxFrameBytes) (count : ℕ) (sequence : UInt32) (rest : Bytes) :
    scanHeader (sealBytes (headerFields length count sequence) ++ rest) = .ok length := by
  obtain ⟨hmagic, hheader, hsum, hversion, hsize, hflags, hlength, -, -⟩ :=
    array_header length count sequence rest
  have hfields : slice? (sealBytes (headerFields length count sequence)) 0 28
      = some (headerFields length count sequence) := by
    rw [slice?_of_le (by omega) (by simp)]
    simp [sealBytes]
  have hdeclared : leNat (leBytes 4 length) = length :=
    leNat_leBytes (lt_of_le_of_lt hmax (by decide))
  have hversion' : leNat (leBytes 2 ec03FormatVersion) = ec03FormatVersion := by decide
  have hsize' : leNat (leBytes 2 32) = 32 := by decide
  have hflags' : leNat (leBytes 4 0) = 0 := by decide
  unfold scanHeader
  simp only [hmagic, hheader, hsum, hversion, hsize, hflags, hlength, hfields, okOr, bind,
    Except.bind, ofNat_leNat_checksum, hdeclared, hversion', hsize', hflags', ne_eq,
    not_true_eq_false, if_false, or_self]
  rw [if_neg (by omega)]
  rfl

lemma frameBytes_eq (sequence : UInt32) (records : List Record) (rest : Bytes) :
    ∃ tail, frameBytes sequence records ++ rest
      = sealBytes (headerFields (frameSize records) records.length sequence) ++ tail := by
  unfold frameBytes
  rw [sealBytes]
  simp only [List.append_assoc]
  exact ⟨_, rfl⟩

omit [Checksum] in
lemma frameOverhead_le_frameSize (records : List Record) : frameOverhead ≤ frameSize records :=
  Nat.le_add_right _ _

lemma scanHeader_frameBytes {records : List Record} (h : Fits records) (sequence : UInt32)
    (rest : Bytes) : scanHeader (frameBytes sequence records ++ rest) = .ok (frameSize records) := by
  obtain ⟨tail, htail⟩ := frameBytes_eq sequence records rest
  rw [htail]
  exact scanHeader_headerFields (frameOverhead_le_frameSize records) h.2 _ _ _

/-- A written frame is read back, whatever follows it. -/
theorem scanFrame_frameBytes {records : List Record} (h : Fits records) (sequence : UInt32)
    (rest : Bytes) :
    scanFrame (frameBytes sequence records ++ rest)
      = .ok ⟨sequence, frameSize records, records.flatMap encodeRecord⟩ := by
  have hlen := length_frameBytes sequence records
  have hsize := length_flatMap_encodeRecord records
  have hmax : maxFrameBytes < 256 ^ 4 := by decide
  have hover : frameOverhead = 36 := rfl
  rw [scanFrame_append_of_header (by simpa using scanHeader_frameBytes h sequence []) hlen.ge]
  have hheader := scanHeader_frameBytes h sequence []
  rw [List.append_nil] at hheader
  obtain ⟨tail, htail⟩ := frameBytes_eq sequence records []
  rw [List.append_nil] at htail
  obtain ⟨-, -, -, -, -, -, -, hcount, hseq⟩ :=
    array_header (frameSize records) records.length sequence tail
  rw [← htail] at hcount hseq
  set body := sealBytes (headerFields (frameSize records) records.length sequence)
    ++ records.flatMap encodeRecord with hbody
  have hbodylen : body.length = frameSize records - 4 := by
    rw [hbody, List.length_append, length_sealBytes, length_headerFields]
    omega
  have hframe : frameBytes sequence records
      = body ++ (leBytes 4 (Checksum.checksum body).toNat ++ []) := by
    rw [List.append_nil]
    rfl
  have hwhole : slice? (frameBytes sequence records) 0 (frameSize records)
      = some (frameBytes sequence records) := by
    rw [slice?_of_le (by omega) hlen.ge, List.take_of_length_le hlen.le, List.drop_zero]
  have hcovered : slice? (frameBytes sequence records) 0 (frameSize records - 4) = some body := by
    rw [hframe, ← List.nil_append (body ++ _)]
    exact slice?_middle [] body _ rfl (by simp [hbodylen])
  have hstored : array 4 (frameBytes sequence records) (frameSize records - 4)
      = .ok (leBytes 4 (Checksum.checksum body).toNat) := by
    rw [hframe]
    exact array_middle _ _ _ hbodylen.symm (by simp)
  have hregion : slice? (frameBytes sequence records) headerBytes (frameSize records - 4)
      = some (records.flatMap encodeRecord) := by
    rw [hframe, hbody, List.append_assoc]
    exact slice?_middle _ _ _ (by simp [headerBytes])
      (by rw [length_sealBytes, length_headerFields]; omega)
  have hsequence : leNat (leBytes 8 sequence.toNat) = sequence.toNat :=
    leNat_leBytes (sequence.toNat_lt.trans (by decide))
  have hnumber : leNat (leBytes 4 records.length) = records.length :=
    leNat_leBytes (lt_of_le_of_lt ((length_le_frameSize records).trans h.2) hmax)
  have hdiv : ¬ (records.flatMap encodeRecord).length / recordOverhead < records.length := by
    have hmul := length_mul_le_flatMap records
    unfold recordOverhead at *
    omega
  have hscan : scanRecords records.length (records.flatMap encodeRecord) = .ok [] :=
    scanRecords_eq_ok.mpr ⟨records, rfl, by simp, h.1⟩
  have hfits : ¬ 2 ^ 32 ≤ sequence.toNat := by
    have := sequence.toNat_lt
    omega
  unfold scanFrame
  simp only [hheader, hwhole, hcovered, hstored, hregion, hcount, hseq, hscan, hnumber, hsequence,
    okOr, bind, Except.bind, ofNat_leNat_checksum, hdiv, hfits, ne_eq, not_true_eq_false, if_false,
    UInt32.ofNat_toNat, pure, Except.pure]

/-- The recorded frame of the format tests: sequence 42 and the record `abc` with flags `0xa5`. -/
example : @encodeRecords crc32cChecksum 42 [⟨0xa5, [97, 98, 99]⟩]
    = .ok [69, 67, 48, 51, 2, 0, 32, 0, 48, 0, 0, 0, 1, 0, 0, 0, 42, 0, 0, 0, 0, 0, 0, 0, 0, 0, 0, 0,
      93, 164, 147, 163, 3, 0, 0, 0, 165, 97, 98, 99, 183, 63, 75, 54, 167, 203, 155, 179] := by
  decide +kernel

/-- A written frame that is cut anywhere is incomplete. -/
theorem scanFrame_of_cut {records : List Record} (h : Fits records) (sequence : UInt32) {x : Bytes}
    (hcut : x <+: frameBytes sequence records) (hlt : x.length < frameSize records) :
    scanFrame x = .error .incomplete := by
  obtain ⟨y, hy⟩ := hcut
  by_cases hlong : headerBytes ≤ x.length
  · have hheader := scanHeader_frameBytes h sequence []
    rw [List.append_nil, ← hy, scanHeader_append hlong] at hheader
    exact scanFrame_of_lt hheader hlt
  · by_cases hfour : x.length < 4
    · exact scanFrame_of_header_error (scanHeader_of_lt_four hfour)
    · obtain ⟨tail, htail⟩ := frameBytes_eq sequence records []
      have hmagic := (array_header (frameSize records) records.length sequence tail).1
      rw [← htail, List.append_nil, ← hy, array_append (by omega)] at hmagic
      have hslice : slice? x 0 4 = some magic := okOr_eq_ok.mp hmagic
      exact scanFrame_of_header_error (scanHeader_of_lt hslice (by omega))

end EditChain.Store
