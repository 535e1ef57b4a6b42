import EditChain.Lib.UnitWriter
import EditChain.Store.Codec
import EditChain.Store.ScanTheorems

/-!
# Pages and frames are read back

A frame is accepted exactly when it is the encoding of the records in it, so `encode_ec03` and
`decode_ec03` are inverse to each other. Segments written page by page, in either format, are
scanned back page by page, and a segment that is cut anywhere shows what is wholly in it, followed
by at most one report of an incomplete tail.
-/

namespace EditChain.Store

open ByteString Fallible UnitReader

variable [Checksum]

/-! ## Accepted frames are encodings -/

omit [Checksum] in
lemma take_append_slice (x : Bytes) {start stop : ℕ} (h : start ≤ stop) :
    x.take start ++ (x.take stop).drop start = x.take stop := by
  conv_rhs => rw [← List.take_append_drop start (x.take stop)]
  rw [List.take_take, Nat.min_eq_left h]

omit [Checksum] in
/-- A fixed-width field is determined by its number. -/
lemma slice_eq_leBytes {x : Bytes} {a n value : ℕ} (hlen : a + n ≤ x.length)
    (hvalue : leNat ((x.take (a + n)).drop a) = value) :
    (x.take (a + n)).drop a = leBytes n value := by
  have hsize : ((x.take (a + n)).drop a).length = n := by
    rw [List.length_drop, List.length_take]
    omega
  rw [← hvalue]
  conv_lhs => rw [← leBytes_leNat ((x.take (a + n)).drop a), hsize]

omit [Checksum] in
/-- A stored checksum is determined by what it covers. -/
lemma slice_eq_checksum {x : Bytes} {a : ℕ} {sum : UInt32} (hlen : a + 4 ≤ x.length)
    (hsum : sum = UInt32.ofNat (leNat ((x.take (a + 4)).drop a))) :
    (x.take (a + 4)).drop a = leBytes 4 sum.toNat := by
  have hsize : ((x.take (a + 4)).drop a).length = 4 := by
    rw [List.length_drop, List.length_take]
    omega
  have hlt := leNat_lt ((x.take (a + 4)).drop a)
  rw [hsize] at hlt
  apply slice_eq_leBytes hlen
  rw [hsum, UInt32.toNat_ofNat_of_lt' hlt]

/-- An accepted header is the encoding of its fields. -/
lemma take_of_scanHeader {x : Bytes} {length count : ℕ} {sequence : UInt32}
    (h : scanHeader x = .ok length) (hcount : leNat ((x.take 16).drop 12) = count)
    (hsequence : leNat ((x.take 24).drop 16) = sequence.toNat) :
    x.take headerBytes = sealBytes (headerFields length count sequence)
      ∧ declaredLength x = length := by
  unfold scanHeader at h
  simp only [bind_eq_ok, guard_eq_ok, pure_eq_ok, okOr_eq_ok, slice?_eq_some, array_eq_ok] at h
  obtain ⟨_, ⟨-, rfl⟩, hmagic, _, ⟨-, hlong, rfl⟩, _, ⟨-, -, rfl⟩, _, ⟨-, rfl⟩, hsum, _, ⟨-, rfl⟩, _,
    ⟨-, rfl⟩, _, ⟨-, rfl⟩, hfields, _, ⟨-, rfl⟩, -, rfl⟩ := h
  have hheader : 32 ≤ x.length := hlong
  simp only [Nat.zero_add, List.drop_zero, ne_eq, not_not, not_or] at hmagic hsum hfields
  obtain ⟨hversion, hsize, hflags⟩ := hfields
  rw [headerBytes, List.take_take, Nat.min_eq_left (by omega)] at hsum
  -- the 28 covered bytes, field by field
  have hcovered : ∀ length, leNat ((x.take (8 + 4)).drop 8) = length →
      x.take 28 = headerFields length count sequence := by
    intro length hlength
    rw [← take_append_slice x (show 24 ≤ 28 by omega), ← take_append_slice x (show 16 ≤ 24 by omega),
      ← take_append_slice x (show 12 ≤ 16 by omega), ← take_append_slice x (show 8 ≤ 12 by omega),
      ← take_append_slice x (show 6 ≤ 8 by omega), ← take_append_slice x (show 4 ≤ 6 by omega),
      hmagic, slice_eq_leBytes (x := x) (a := 4) (n := 2) (by omega) hversion,
      slice_eq_leBytes (x := x) (a := 6) (n := 2) (by omega) hsize,
      slice_eq_leBytes (x := x) (a := 8) (n := 4) (by omega) hlength,
      slice_eq_leBytes (x := x) (a := 12) (n := 4) (by omega) hcount,
      slice_eq_leBytes (x := x) (a := 16) (n := 8) (by omega) hsequence,
      slice_eq_leBytes (x := x) (a := 24) (n := 4) (by omega) hflags]
    rfl
  refine ⟨?_, rfl⟩
  rw [headerBytes, ← take_append_slice x (show 28 ≤ 32 by omega),
    slice_eq_checksum (a := 28) (by omega) hsum, hcovered _ rfl]
  rfl

/-- An accepted frame is the encoding of the records in it. -/
theorem scanFrame_eq_frameBytes {x : Bytes} {frame : FrameRef} (h : scanFrame x = .ok frame) :
    ∃ records : List Record, Fits records ∧ frame.records = records.flatMap encodeRecord
      ∧ frame.length = frameSize records ∧ frame.length = declaredLength x
      ∧ x.take frame.length = frameBytes frame.sequence records := by
  obtain ⟨hok, hle, -, -⟩ := scanFrame_eq_ok h
  obtain ⟨-, hmin, hmax⟩ := scanHeader_eq_ok hok
  have hmin' : 36 ≤ frame.length := hmin
  unfold scanFrame at h
  simp only [bind_eq_ok, guard_eq_ok, pure_eq_ok, okOr_eq_ok, slice?_eq_some, array_eq_ok] at h
  obtain ⟨length, hheader, _, ⟨-, -, rfl⟩, _, ⟨-, -, rfl⟩, _, ⟨hstop, rfl⟩, hsum, _, ⟨-, -, rfl⟩, _,
    ⟨-, rfl⟩, -, rest, hrecords, hrest, _, ⟨-, rfl⟩, hsmall, rfl⟩ := h
  simp only [List.drop_zero, ne_eq, not_not] at hsum hrest hrecords hle hmin' hmax
  have hfour : length - 4 + 4 = length := by omega
  rw [List.take_take, Nat.min_eq_left (by omega)] at hsum hrecords
  rw [hfour, List.take_take, Nat.min_self] at hsum
  rw [hrest] at hrecords
  obtain ⟨records, hcount, hregion, hall⟩ := scanRecords_eq_ok.mp hrecords
  rw [List.append_nil] at hregion
  have hsequence : leNat ((x.take 24).drop 16)
      = (UInt32.ofNat (leNat ((x.take 24).drop 16))).toNat := by
    rw [UInt32.toNat_ofNat_of_lt']
    exact Nat.lt_of_not_le hsmall
  obtain ⟨hbytes, hdeclared⟩ := take_of_scanHeader hheader hcount.symm hsequence
  have hlen : ((x.take (length - 4)).drop headerBytes).length = length - 36 := by
    rw [List.length_drop, List.length_take, headerBytes]
    omega
  have hsize : length = frameSize records := by
    rw [← length_flatMap_encodeRecord, ← hregion, hlen, frameOverhead, headerBytes]
    omega
  have hbody : x.take (length - 4)
      = sealBytes (headerFields (frameSize records) records.length
          (UInt32.ofNat (leNat ((x.take 24).drop 16)))) ++ records.flatMap encodeRecord := by
    rw [← take_append_slice x (show headerBytes ≤ length - 4 by rw [headerBytes]; omega), hregion,
      hbytes, hsize]
  refine ⟨records, ⟨hall, hsize ▸ hmax⟩, ?_, hsize, hdeclared.symm, ?_⟩
  · rw [← hregion]
    show ((((x.take length).drop 0).take (length - 4)).drop headerBytes) = _
    rw [List.drop_zero, List.take_take, Nat.min_eq_left (by omega)]
  · show x.take length = _
    rw [← hfour] at hsum
    rw [← take_append_slice x (show length - 4 ≤ length by omega)]
    have hstored := slice_eq_checksum (x := x) (a := length - 4) (by omega) hsum
    rw [hfour] at hstored
    rw [hstored, hbody]
    rfl

/-! ## One frame -/

/-- The records of a region are added in order. -/
lemma decodeRecords_flatMap (result : Ec03Frame) {records : List Record}
    (h : ∀ record ∈ records, record.data.length ≤ maxRecordBytes) :
    decodeRecords result (records.flatMap encodeRecord)
      = .ok { result with records := result.records ++ records } := by
  induction records generalizing result with
  | nil => simp [decodeRecords]
  | cons record records ih =>
    have hne : (record :: records).flatMap encodeRecord ≠ [] := by
      rw [List.flatMap_cons]
      intro hnil
      have hlen := congrArg List.length hnil
      rw [List.length_append, length_encodeRecord, recordOverhead, List.length_nil] at hlen
      omega
    have hscan : scanRecord ((record :: records).flatMap encodeRecord) = .ok (checked record) := by
      rw [List.flatMap_cons]
      exact scanRecord_encodeRecord (h record List.mem_cons_self) _
    have hrest : from? ((record :: records).flatMap encodeRecord) (checked record).length
        = some (records.flatMap encodeRecord) := by
      have hlen : (checked record).length = (encodeRecord record).length := by
        rw [length_encodeRecord]
        rfl
      unfold from?
      rw [List.flatMap_cons, hlen, if_pos (by simp), List.drop_left]
    rw [decodeRecords, if_neg hne]
    split
    · next error herror =>
      rw [hscan] at herror
      cases herror
    · next found hfound =>
      rw [hscan] at hfound
      cases hfound
      split
      · next hnone =>
        rw [hrest] at hnone
        cases hnone
      · next rest hsome =>
        rw [hrest] at hsome
        cases hsome
        rw [ih _ fun r hr => h r (List.mem_cons_of_mem _ hr)]
        simp [Ec03Frame.addRecord, checked]

/-- A frame is encoded exactly when it fits. -/
lemma encodeEc03_eq (frame : Ec03Frame) :
    encodeEc03 frame = if Fits frame.records then .ok (frameBytes frame.pageSequence frame.records)
      else .error .length :=
  encodeRecords_eq _ _

lemma encodeEc03_eq_ok {frame : Ec03Frame} {encoded : Bytes} :
    encodeEc03 frame = .ok encoded
      ↔ Fits frame.records ∧ encoded = frameBytes frame.pageSequence frame.records := by
  rw [encodeEc03_eq]
  split
  · next hfits => simp [hfits, eq_comm]
  · next hfits => simp [hfits]

/-- The records of an accepted frame are the decoded ones. -/
lemma decodeEc03_of_scanFrame {bytes : Bytes} {sequence : UInt32} {length : ℕ}
    {records : List Record} (hall : ∀ record ∈ records, record.data.length ≤ maxRecordBytes)
    (h : scanFrame bytes = .ok ⟨sequence, length, records.flatMap encodeRecord⟩) :
    decodeEc03 bytes = .ok ⟨sequence, records⟩ := by
  unfold decodeEc03
  rw [h]
  show decodeRecords (.new sequence) (records.flatMap encodeRecord) = _
  rw [decodeRecords_flatMap _ hall]
  simp [Ec03Frame.new]

/-- EC03 is a bijection between the frames that fit and their encodings: an encoded frame is decoded
whatever follows it, a decoded frame is encoded as the bytes it was declared to have, and only a
record or a frame that is too large is refused. -/
theorem ec03_bijection (frame : Ec03Frame) (bytes : Bytes) :
    (∀ encoded, encodeEc03 frame = .ok encoded → decodeEc03 (encoded ++ bytes) = .ok frame)
      ∧ (decodeEc03 bytes = .ok frame →
        encodeEc03 frame = .ok (bytes.take (declaredLength bytes)))
      ∧ ((∃ error, encodeEc03 frame = .error error)
        ↔ (∃ record ∈ frame.records, maxRecordBytes < record.data.length)
          ∨ maxFrameBytes < frameSize frame.records) := by
  refine ⟨?_, ?_, ?_⟩
  · intro encoded hencoded
    obtain ⟨hfits, rfl⟩ := encodeEc03_eq_ok.mp hencoded
    exact decodeEc03_of_scanFrame hfits.1 (scanFrame_frameBytes hfits _ _)
  · intro hdecoded
    cases hscan : scanFrame bytes with
    | error error =>
      unfold decodeEc03 at hdecoded
      rw [hscan] at hdecoded
      cases hdecoded
    | ok found =>
      obtain ⟨records, hfits, hrecords, -, hdeclared, htake⟩ := scanFrame_eq_frameBytes hscan
      have hfound : scanFrame bytes
          = .ok ⟨found.sequence, found.length, records.flatMap encodeRecord⟩ := by
        rw [hscan, ← hrecords]
      rw [decodeEc03_of_scanFrame hfits.1 hfound] at hdecoded
      cases hdecoded
      rw [encodeEc03_eq_ok]
      refine ⟨hfits, ?_⟩
      rw [← hdeclared]
      exact htake
  · rw [encodeEc03_eq]
    by_cases hfits : Fits frame.records
    · rw [if_pos hfits]
      constructor
      · rintro ⟨error, herror⟩
        cases herror
      · rintro (⟨record, hmem, hlarge⟩ | hlarge)
        · exact absurd (hfits.1 record hmem) (Nat.not_le_of_lt hlarge)
        · exact absurd hfits.2 (Nat.not_le_of_lt hlarge)
    · rw [if_neg hfits]
      refine ⟨fun _ => ?_, fun _ => ⟨.length, rfl⟩⟩
      by_contra hsmall
      simp only [not_or, not_exists, not_and, not_lt] at hsmall
      exact hfits hsmall

omit [Checksum] in
/-- The recorded frame of the format tests, followed by another byte. -/
theorem ec03_bijection_abc : ∃ encoded,
    @encodeEc03 crc32cChecksum ⟨42, [⟨0xa5, [97, 98, 99]⟩]⟩ = .ok encoded
      ∧ @decodeEc03 crc32cChecksum (encoded ++ [0]) = .ok ⟨42, [⟨0xa5, [97, 98, 99]⟩]⟩ := by
  have hfits : Fits [⟨0xa5, [97, 98, 99]⟩] := by decide
  have hencoded := @encodeEc03_eq crc32cChecksum ⟨42, [⟨0xa5, [97, 98, 99]⟩]⟩
  rw [if_pos hfits] at hencoded
  exact ⟨_, hencoded, (@ec03_bijection crc32cChecksum _ [0]).1 _ hencoded⟩

/-! ## Written segments -/

/-- The bytes of a unit of a segment, and its items relative to its start. -/
abbrev Written := Bytes × List ScanItem

/-- What a scanner shows of the first `n` bytes of some units, the first of them at `offset`: the
items of every whole unit, and one error at the start of a unit that is cut. -/
def shown : ℕ → ℕ → List Written → List (Except ScanError ScanItem)
  | _, _, [] => []
  | offset, n, (bytes, items) :: units =>
    if n = 0 then []
    else if n < bytes.length then [.error ⟨offset, .incompleteTail⟩]
    else items.map (fun item => .ok (item.shift offset))
      ++ shown (offset + bytes.length) (n - bytes.length) units

omit [Checksum] in
lemma shown_eq (units : List Written) (hpos : ∀ unit ∈ units, unit.1 ≠ []) (offset n : ℕ)
    (hn : n ≤ (contents units).length) :
    shown offset n units
      = ((PageScanner.unitItems (whole n units)).map fun item => .ok (item.shift offset))
        ++ PageScanner.endError (offset + wholeLength n units)
          (if wholeLength n units = n then .clean else .more) := by
  induction units generalizing offset n with
  | nil =>
    have hzero : n = 0 := Nat.le_zero.mp hn
    simp [shown, whole, wholeLength, hzero, PageScanner.unitItems, PageScanner.endError]
  | cons unit units ih =>
    obtain ⟨bytes, items⟩ := unit
    have hlen : 0 < bytes.length := List.length_pos_iff.mpr (hpos _ List.mem_cons_self)
    rw [contents_cons, List.length_append] at hn
    rw [shown, whole, wholeLength]
    by_cases hzero : n = 0
    · rw [if_pos hzero, if_pos (by omega), if_pos (by omega)]
      simp [hzero, PageScanner.unitItems, PageScanner.endError]
    · rw [if_neg hzero]
      by_cases hlt : n < bytes.length
      · rw [if_pos hlt, if_pos hlt, if_pos hlt, if_neg (by omega)]
        simp [PageScanner.unitItems, PageScanner.endError]
      · rw [if_neg hlt, if_neg hlt, if_neg hlt,
          ih (fun u hu => hpos u (List.mem_cons_of_mem _ hu)) _ _ (by omega)]
        have hcond : bytes.length + wholeLength (n - bytes.length) units = n
            ↔ wholeLength (n - bytes.length) units = n - bytes.length := by omega
        simp only [PageScanner.unitItems, List.flatMap_cons, List.flatMap_map, List.map_append,
          List.map_map, List.map_flatMap, Function.comp_def, ScanItem.shift_shift, Nat.add_zero,
          Nat.add_assoc, List.append_assoc, hcond]

/-- A scanner at the start of units, any part of which follows, shows what is wholly there. -/
lemma items_between_of_writes {units : List Written} {page : Option UInt32} {bytes : Bytes}
    {offset : ℕ} (h : Writes pages page units) (hle : offset ≤ bytes.length)
    (hp : bytes.drop offset <+: contents units) :
    (PageScanner.between bytes offset page).items.1
      = shown offset (bytes.drop offset).length units := by
  obtain ⟨hunits, hconsumed, hending⟩ := run_of_writes h hp
  have hfuel : (bytes.drop offset).length < bytes.length + 2 := by
    rw [List.length_drop]
    omega
  show ((PageScanner.between bytes offset page).collect (bytes.length + 2)).1 = _
  rw [PageScanner.collect_between bytes page _ offset _ hle rfl hfuel,
    shown_eq units h.ne_nil offset _ hp.length_le]
  simp only [Scan.shift, hunits, hconsumed, hending, PageScanner.unitItems, List.flatMap_map,
    List.map_flatMap, List.map_map, Function.comp_def, ScanItem.shift_shift]

/-- Any prefix of a segment that was written unit by unit shows what is wholly in it. -/
theorem items_of_writes {units : List Written} (h : Writes pages none units) {p : Bytes}
    (hp : p <+: contents units) : (PageScanner.new p).items.1 = shown 0 p.length units := by
  have hitems : (PageScanner.between p 0 none).items.1 = shown 0 (p.drop 0).length units :=
    items_between_of_writes h (Nat.zero_le p.length) hp
  exact hitems

/-- The items of units, the first of them at `offset`. -/
def placed : ℕ → List Written → List ScanItem
  | _, [] => []
  | offset, (bytes, items) :: units =>
    items.map (·.shift offset) ++ placed (offset + bytes.length) units

omit [Checksum] in
/-- A segment that is not cut shows everything. -/
lemma shown_contents (units : List Written) (hpos : ∀ unit ∈ units, unit.1 ≠ []) (offset : ℕ) :
    shown offset (contents units).length units = (placed offset units).map .ok := by
  induction units generalizing offset with
  | nil => rfl
  | cons unit units ih =>
    obtain ⟨bytes, items⟩ := unit
    have hlen : 0 < bytes.length := List.length_pos_iff.mpr (hpos _ List.mem_cons_self)
    rw [shown, placed, contents_cons, List.length_append, if_neg (by omega), if_neg (by omega),
      Nat.add_sub_cancel_left, ih fun u hu => hpos u (List.mem_cons_of_mem _ hu)]
    simp [Function.comp_def]

/-! ## Frames -/

/-- A frame as a unit. -/
def Ec03Frame.unit (frame : Ec03Frame) : Written :=
  (frameBytes frame.pageSequence frame.records,
    .page frame.pageSequence 0 :: located frame.pageSequence headerBytes frame.records)

lemma slice?_frameBytes (sequence : UInt32) (records : List Record) (rest : Bytes) :
    slice? (frameBytes sequence records ++ rest) 0 4 = some magic := by
  obtain ⟨tail, htail⟩ := frameBytes_eq sequence records rest
  rw [htail]
  exact okOr_eq_ok.mp (array_header (frameSize records) records.length sequence tail).1

/-- A written frame is one unit. -/
lemma chunk_ec03Frame {records : List Record} (h : Fits records) (page : Option UInt32)
    (sequence : UInt32) :
    chunk page (frameBytes sequence records)
      = .unit (.page sequence 0 :: located sequence headerBytes records)
          (frameBytes sequence records).length none := by
  have hhead := slice?_frameBytes sequence records []
  have hscan := scanFrame_frameBytes h sequence []
  rw [List.append_nil] at hhead hscan
  have hcount : records.length ≤ (records.flatMap encodeRecord).length := by
    have hmul := length_mul_le_flatMap records
    unfold recordOverhead at hmul
    omega
  rw [chunk_of_head hhead, unitKind_eq_frame.mpr rfl, length_frameBytes]
  simp only [UnitKind.read, frameChunk, hscan, FrameRef.items]
  rw [regionRecords_flatMap h.1 hcount]

/-- A frame that is cut asks for more. -/
lemma chunk_of_cut_ec03Frame {records : List Record} (h : Fits records) (page : Option UInt32)
    (sequence : UInt32) {y : Bytes} (hy : y <+: frameBytes sequence records)
    (hlt : y.length < (frameBytes sequence records).length) : chunk page y = .more := by
  by_cases hfour : y.length < 4
  · exact chunk_of_lt hfour
  · obtain ⟨z, hz⟩ := hy
    have hhead : slice? y 0 4 = some magic := by
      have hwhole := slice?_frameBytes sequence records []
      rw [List.append_nil, ← hz, slice?_append (by omega)] at hwhole
      exact hwhole
    rw [length_frameBytes] at hlt
    rw [chunk_of_head hhead, unitKind_eq_frame.mpr rfl]
    simp only [UnitKind.read, frameChunk, scanFrame_of_cut h sequence ⟨z, hz⟩ hlt, if_true]

/-- Frames that were accepted are written as units. -/
lemma writes_frames {frames : List Ec03Frame} (h : ∀ frame ∈ frames, Fits frame.records) :
    Writes pages none (frames.map Ec03Frame.unit) := by
  induction frames with
  | nil => exact .nil none
  | cons frame frames ih =>
    have hfits := h frame List.mem_cons_self
    have hnext : ∀ page bytes, pages.next page bytes = chunk page bytes := fun _ _ => rfl
    refine .cons ?_ (fun y hy _ hlt => ?_) (ih fun f hf => h f (List.mem_cons_of_mem _ hf))
    · rw [hnext]
      exact chunk_ec03Frame hfits none _
    · rw [hnext]
      exact chunk_of_cut_ec03Frame hfits none _ hy hlt

/-- The encodings of frames, one after the other. -/
lemma encodings_eq {frames : List Ec03Frame} {encoded : List Bytes}
    (h : frames.mapM encodeEc03 = .ok encoded) :
    (∀ frame ∈ frames, Fits frame.records)
      ∧ encoded.flatten = contents (frames.map Ec03Frame.unit) := by
  induction frames generalizing encoded with
  | nil =>
    cases h
    exact ⟨fun _ hnone => (by cases hnone), rfl⟩
  | cons frame frames ih =>
    rw [List.mapM_cons] at h
    simp only [bind_eq_ok, pure_eq_ok] at h
    obtain ⟨bytes, hbytes, rest, hrest, rfl⟩ := h
    obtain ⟨hfits, rfl⟩ := encodeEc03_eq_ok.mp hbytes
    obtain ⟨hall, hflat⟩ := ih hrest
    refine ⟨List.forall_mem_cons.mpr ⟨hfits, hall⟩, ?_⟩
    rw [List.flatten_cons, hflat]
    rfl

/-- Torn writes are always seen as torn: any prefix of accepted frames shows the frames that are
wholly in it, and one incomplete tail where a frame is cut. -/
theorem torn_frames_shown (frames : List Ec03Frame) (encoded : List Bytes) (p : Bytes)
    (hencoded : frames.mapM encodeEc03 = .ok encoded) (hp : p <+: encoded.flatten) :
    (PageScanner.new p).items.1 = shown 0 p.length (frames.map Ec03Frame.unit) := by
  obtain ⟨hfits, hflat⟩ := encodings_eq hencoded
  rw [hflat] at hp
  exact items_of_writes (writes_frames hfits) hp

/-- The recorded frame of the format tests. -/
def abcFrame : Bytes :=
  [69, 67, 48, 51, 2, 0, 32, 0, 48, 0, 0, 0, 1, 0, 0, 0, 42, 0, 0, 0, 0, 0, 0, 0, 0, 0, 0, 0,
    93, 164, 147, 163, 3, 0, 0, 0, 165, 97, 98, 99, 183, 63, 75, 54, 167, 203, 155, 179]

omit [Checksum] in
/-- Two such frames, the second of which is cut in its header. -/
theorem torn_frames_shown_abc :
    (@PageScanner.items crc32cChecksum (.new (abcFrame ++ abcFrame.take 10))).1
      = [.ok (.page 42 0), .ok (.record ⟨42, 32, 37, 0xa5, [97, 98, 99], some 0x364b3fb7⟩),
          .error ⟨48, .incompleteTail⟩] :=
  (@torn_frames_shown crc32cChecksum [⟨42, [⟨0xa5, [97, 98, 99]⟩]⟩, ⟨42, [⟨0xa5, [97, 98, 99]⟩]⟩]
    [abcFrame, abcFrame] _ (by decide +kernel) ⟨abcFrame.drop 10, by decide +kernel⟩).trans
      (by decide +kernel)

/-! ## Pages -/

/-- A record of a page as a unit. -/
def pageRecordUnit (sequence : UInt32) (record : Record) : Written :=
  (pageRecord record, [.record ⟨sequence, 0, 5, record.flags, record.data, none⟩])

/-- A page as units: its header and its records. -/
def Page.units (page : Page) : List Written :=
  (pageMagic ++ leBytes 4 page.pageSeq.toNat, [.page page.pageSeq 0])
    :: page.records.map (pageRecordUnit page.pageSeq)

omit [Checksum] in
/-- A page marker read as a length is above the largest record. -/
lemma maxRecordBytes_lt_of_marker {head : Bytes} (h : PageScanner.isPageMarker head = true) :
    maxRecordBytes < leNat head := by
  unfold PageScanner.isPageMarker at h
  split at h
  · next e c d u =>
    simp only [Bool.decide_and, Bool.and_eq_true, decide_eq_true_eq] at h
    obtain ⟨-, -, -, -, hlow, -⟩ := h
    have hlast : 48 ≤ u.toNat := hlow
    simp only [leNat, maxRecordBytes]
    omega
  · cases h

omit [Checksum] in
/-- The length of a record is never taken for a marker. -/
lemma unitKind_of_length {length : ℕ} (h : length ≤ maxRecordBytes) (sequence : UInt32) :
    unitKind (some sequence) (leBytes 4 length) = .record sequence := by
  have hlength : leNat (leBytes 4 length) = length :=
    leNat_leBytes (lt_of_le_of_lt h maxRecordBytes_lt)
  have hmarker : ∀ head, PageScanner.isPageMarker head = true → leBytes 4 length ≠ head := by
    rintro head hhead rfl
    have := maxRecordBytes_lt_of_marker hhead
    omega
  unfold unitKind
  rw [if_neg (hmarker magic (by decide)), if_neg (hmarker pageMagic (by decide)), if_neg]
  exact fun hhead => hmarker _ hhead rfl

omit [Checksum] in
lemma length_pageRecord (record : Record) :
    (pageRecord record).length = 5 + record.data.length := by
  simp only [pageRecord, List.length_append, length_leBytes, List.length_singleton]

/-- A written record of a page is one unit. -/
lemma chunk_pageRecord {record : Record} (h : record.data.length ≤ maxRecordBytes)
    (sequence : UInt32) :
    chunk (some sequence) (pageRecord record)
      = .unit (pageRecordUnit sequence record).2 (pageRecord record).length (some sequence) := by
  have hlength : leNat (leBytes 4 record.data.length) = record.data.length :=
    leNat_leBytes (lt_of_le_of_lt h maxRecordBytes_lt)
  have hbytes : pageRecord record
      = leBytes 4 record.data.length ++ ([record.flags] ++ (record.data ++ [])) := by
    simp [pageRecord]
  have hhead : slice? (pageRecord record) 0 4 = some (leBytes 4 record.data.length) := by
    rw [hbytes, ← List.nil_append (leBytes 4 record.data.length ++ _)]
    exact slice?_middle [] _ _ rfl (by simp)
  have hflags : (pageRecord record)[4]? = some record.flags := by
    rw [hbytes, List.getElem?_append_right (by simp)]
    simp
  have hdata : slice? (pageRecord record) 5 (5 + record.data.length) = some record.data := by
    rw [hbytes, ← List.append_assoc]
    exact slice?_middle _ _ _ (by simp) (by simp)
  rw [chunk_of_head hhead, unitKind_of_length h, length_pageRecord]
  simp only [UnitKind.read, recordChunk, hlength, Nat.not_lt.mpr h, if_false, hflags, hdata,
    pageRecordUnit]

/-- A record of a page that is cut asks for more. -/
lemma chunk_of_cut_pageRecord {record : Record} (h : record.data.length ≤ maxRecordBytes)
    (sequence : UInt32) {y : Bytes} (hy : y <+: pageRecord record)
    (hlt : y.length < (pageRecord record).length) : chunk (some sequence) y = .more := by
  by_cases hfour : y.length < 4
  · exact chunk_of_lt hfour
  · obtain ⟨z, hz⟩ := hy
    have hlength : leNat (leBytes 4 record.data.length) = record.data.length :=
      leNat_leBytes (lt_of_le_of_lt h maxRecordBytes_lt)
    have hhead : slice? y 0 4 = some (leBytes 4 record.data.length) := by
      rw [← slice?_append (by omega) z, hz, pageRecord, List.append_assoc,
        ← List.nil_append (leBytes 4 record.data.length ++ _)]
      exact slice?_middle [] _ _ rfl (by simp)
    rw [length_pageRecord] at hlt
    rw [chunk_of_head hhead, unitKind_of_length h]
    simp only [UnitKind.read, recordChunk, hlength, Nat.not_lt.mpr h, if_false,
      (slice?_eq_none (show 5 ≤ 5 + record.data.length by omega)).mpr hlt]
    cases y[4]? <;> rfl

omit [Checksum] in
lemma length_pageHeader (sequence : UInt32) :
    (pageMagic ++ leBytes 4 sequence.toNat).length = 8 := by
  simp [pageMagic]

omit [Checksum] in
lemma unitKind_pageMagic (page : Option UInt32) : unitKind page pageMagic = .page := by
  unfold unitKind
  rw [if_neg (by decide), if_pos rfl]

omit [Checksum] in
/-- The fields of a page header, whatever follows it. -/
lemma slice?_pageHeader (sequence : UInt32) (rest : Bytes) :
    slice? (pageMagic ++ leBytes 4 sequence.toNat ++ rest) 0 4 = some pageMagic
      ∧ slice? (pageMagic ++ leBytes 4 sequence.toNat ++ rest) 4 8
        = some (leBytes 4 sequence.toNat) := by
  rw [List.append_assoc]
  exact ⟨slice?_middle [] pageMagic _ rfl rfl, slice?_middle _ _ _ rfl (by simp [pageMagic])⟩

/-- A page header is one unit. -/
lemma chunk_pageHeader (page : Option UInt32) (sequence : UInt32) :
    chunk page (pageMagic ++ leBytes 4 sequence.toNat)
      = .unit [.page sequence 0] (pageMagic ++ leBytes 4 sequence.toNat).length
          (some sequence) := by
  obtain ⟨hhead, hfield⟩ := slice?_pageHeader sequence []
  rw [List.append_nil] at hhead hfield
  rw [chunk_of_head hhead, unitKind_pageMagic, length_pageHeader]
  simp only [UnitKind.read, pageChunk, hfield, ofNat_leNat_checksum]

/-- A page header that is cut asks for more. -/
lemma chunk_of_cut_pageHeader (page : Option UInt32) (sequence : UInt32) {y : Bytes}
    (hy : y <+: pageMagic ++ leBytes 4 sequence.toNat)
    (hlt : y.length < (pageMagic ++ leBytes 4 sequence.toNat).length) : chunk page y = .more := by
  by_cases hfour : y.length < 4
  · exact chunk_of_lt hfour
  · obtain ⟨z, hz⟩ := hy
    have hhead : slice? y 0 4 = some pageMagic := by
      rw [← slice?_append (by omega) z, hz, ← List.append_nil (pageMagic ++ _)]
      exact (slice?_pageHeader sequence []).1
    rw [length_pageHeader] at hlt
    rw [chunk_of_head hhead, unitKind_pageMagic]
    simp only [UnitKind.read, pageChunk, (slice?_eq_none (show 4 ≤ 8 by omega)).mpr hlt]

/-- The records of a page are written as units. -/
lemma writes_pageRecords {sequence : UInt32} {records : List Record}
    (h : ∀ record ∈ records, record.data.length ≤ maxRecordBytes) {units : List Written}
    (hunits : Writes pages (some sequence) units) :
    Writes pages (some sequence) (records.map (pageRecordUnit sequence) ++ units) := by
  induction records with
  | nil => exact hunits
  | cons record records ih =>
    have hsize := h record List.mem_cons_self
    exact .cons (chunk_pageRecord hsize sequence)
      (fun y hy _ hlt => chunk_of_cut_pageRecord hsize sequence hy hlt)
      (ih fun r hr => h r (List.mem_cons_of_mem _ hr))

/-- Pages that were accepted are written as units, whatever page was open before. -/
lemma writes_pages {written : List Page}
    (h : ∀ page ∈ written, ∀ record ∈ page.records, record.data.length ≤ maxRecordBytes)
    (state : Option UInt32) : Writes pages state (written.flatMap Page.units) := by
  induction written generalizing state with
  | nil => exact .nil state
  | cons page written ih =>
    have hrest := ih (fun p hp => h p (List.mem_cons_of_mem _ hp)) (some page.pageSeq)
    exact .cons (chunk_pageHeader state page.pageSeq)
      (fun y hy _ hlt => chunk_of_cut_pageHeader state page.pageSeq hy hlt)
      (writes_pageRecords (h page List.mem_cons_self) hrest)

omit [Checksum] in
lemma encodePageRecords_eq_ok {records : List Record} {buf encoded : Bytes} :
    encodePageRecords buf records = .ok encoded
      ↔ (∀ record ∈ records, record.data.length ≤ maxRecordBytes)
        ∧ encoded = buf ++ records.flatMap pageRecord := by
  induction records generalizing buf with
  | nil => simp [encodePageRecords, eq_comm]
  | cons record records ih =>
    rw [encodePageRecords]
    split
    · next hlarge =>
      simp only [reduceCtorEq, List.forall_mem_cons, false_iff]
      intro h
      have := h.1.1
      omega
    · next hsmall =>
      simp only [ih, List.forall_mem_cons, Nat.not_lt.mp hsmall, true_and, List.flatMap_cons,
        List.append_assoc]

omit [Checksum] in
/-- A page is encoded exactly when its magic and its records are in order. -/
lemma encodePage_eq_ok {page : Page} {encoded : Bytes} :
    encodePage page = .ok encoded
      ↔ page.magic = pageMagic
        ∧ (∀ record ∈ page.records, record.data.length ≤ maxRecordBytes)
        ∧ encoded = contents page.units := by
  have hcontents : contents page.units
      = pageMagic ++ leBytes 4 page.pageSeq.toNat ++ page.records.flatMap pageRecord := by
    simp only [contents, Page.units, List.flatMap_cons, List.flatMap_map]
    rfl
  unfold encodePage
  split
  · next hmagic => simp [hmagic]
  · next hmagic =>
    simp only [ne_eq, not_not] at hmagic
    rw [encodePageRecords_eq_ok, hcontents, hmagic]
    simp

omit [Checksum] in
/-- The encodings of pages, one after the other. -/
lemma page_encodings_eq {written : List Page} {encoded : List Bytes}
    (h : written.mapM encodePage = .ok encoded) :
    (∀ page ∈ written, page.magic = pageMagic
        ∧ ∀ record ∈ page.records, record.data.length ≤ maxRecordBytes)
      ∧ encoded.flatten = contents (written.flatMap Page.units) := by
  induction written generalizing encoded with
  | nil =>
    cases h
    exact ⟨fun _ hnone => (by cases hnone), rfl⟩
  | cons page written ih =>
    rw [List.mapM_cons] at h
    simp only [bind_eq_ok, pure_eq_ok] at h
    obtain ⟨bytes, hbytes, rest, hrest, rfl⟩ := h
    obtain ⟨hmagic, hsize, rfl⟩ := encodePage_eq_ok.mp hbytes
    obtain ⟨hall, hflat⟩ := ih hrest
    refine ⟨List.forall_mem_cons.mpr ⟨⟨hmagic, hsize⟩, hall⟩, ?_⟩
    rw [List.flatten_cons, hflat, List.flatMap_cons, contents_append]

omit [Checksum] in
/-- The records before the next page are added to a page. -/
lemma decodeItems_placed (page : Page) (sequence : UInt32) (records : List Record)
    (written : List Page) (offset : ℕ) :
    decodeItems page ((placed offset (records.map (pageRecordUnit sequence)
        ++ written.flatMap Page.units)).map .ok)
      = some { page with records := page.records ++ records } := by
  induction records generalizing page offset with
  | nil =>
    cases written with
    | nil => simp [placed, decodeItems]
    | cons next written => simp [placed, decodeItems, Page.units, ScanItem.shift]
  | cons record records ih =>
    simp only [List.map_cons, List.cons_append, pageRecordUnit, placed, ScanItem.shift,
      decodeItems, List.map_nil, List.nil_append]
    rw [ih]
    simp [Page.addRecord]

/-- The first page of a segment is decoded. -/
lemma decodePage_contents {page : Page} {written : List Page} (hmagic : page.magic = pageMagic)
    (h : ∀ p ∈ page :: written, ∀ record ∈ p.records, record.data.length ≤ maxRecordBytes) :
    decodePage (contents ((page :: written).flatMap Page.units)) = some page := by
  set bytes := contents ((page :: written).flatMap Page.units) with hbytes
  set units := page.records.map (pageRecordUnit page.pageSeq) ++ written.flatMap Page.units with hunits
  have hsplit : bytes = (pageMagic ++ leBytes 4 page.pageSeq.toNat) ++ contents units := rfl
  have hheader := length_pageHeader page.pageSeq
  have hle : 8 ≤ bytes.length := by
    rw [hsplit, List.length_append]
    omega
  have hdrop : bytes.drop 8 = contents units := by
    rw [hsplit]
    exact List.drop_left' hheader
  have hwrites : Writes pages (some page.pageSeq) units :=
    writes_pageRecords (h page List.mem_cons_self)
      (writes_pages (fun p hp => h p (List.mem_cons_of_mem _ hp)) _)
  have hnext : (PageScanner.new bytes).next
      = (some (.ok (.page page.pageSeq 0)), PageScanner.between bytes 8 (some page.pageSeq)) := by
    obtain ⟨hhead, hfield⟩ := slice?_pageHeader page.pageSeq (contents units)
    rw [← hsplit] at hhead hfield
    have hitem : (PageScanner.between bytes 0 none).nextItem
        = (.ok (.page page.pageSeq 0), PageScanner.between bytes 8 (some page.pageSeq)) := by
      have hfront : slice? (bytes.drop 0) 0 4 = some pageMagic := hhead
      rw [PageScanner.nextItem_between hfront, unitKind_pageMagic]
      have hback : slice? ((PageScanner.between bytes 0 none).bytes.drop
          (PageScanner.between bytes 0 none).offset) 4 8 = some (leBytes 4 page.pageSeq.toNat) := hfield
      show (PageScanner.between bytes 0 none).nextPage = _
      unfold PageScanner.nextPage
      rw [hback]
      simp only [ofNat_leNat_checksum]
      rfl
    show (PageScanner.between bytes 0 none).next = _
    unfold PageScanner.next
    rw [if_neg, hitem]
    show ¬ (false = true ∨ 0 = bytes.length)
    simp only [Bool.false_eq_true, false_or]
    omega
  unfold decodePage
  rw [hnext]
  show decodeItems (.new page.pageSeq) (PageScanner.between bytes 8 (some page.pageSeq)).items.1 = _
  rw [items_between_of_writes hwrites hle (hdrop ▸ List.prefix_refl _), hdrop,
    shown_contents units hwrites.ne_nil, hunits, decodeItems_placed]
  cases page
  simp_all [Page.new]

/-- EC02 segments decode to what was written: the pages and records in order, of any prefix those
that are wholly in it and at most one incomplete tail, and the first page by itself. -/
theorem pages_read_back (written : List Page) (encoded : List Bytes)
    (h : written.mapM encodePage = .ok encoded) :
    (PageScanner.new encoded.flatten).items.1
        = (placed 0 (written.flatMap Page.units)).map .ok
      ∧ (∀ p, p <+: encoded.flatten →
        (PageScanner.new p).items.1 = shown 0 p.length (written.flatMap Page.units))
      ∧ decodePage encoded.flatten = written.head? := by
  obtain ⟨hall, hflat⟩ := page_encodings_eq h
  rw [hflat]
  have hwrites := writes_pages (fun page hpage => (hall page hpage).2) none
  refine ⟨?_, fun p hp => items_of_writes hwrites hp, ?_⟩
  · rw [items_of_writes hwrites (List.prefix_refl _), shown_contents _ hwrites.ne_nil]
  · cases written with
    | nil => rfl
    | cons page written =>
      exact decodePage_contents (hall page List.mem_cons_self).1 fun p hp => (hall p hp).2

omit [Checksum] in
/-- A page whose record spells a marker, and an empty page. -/
theorem pages_read_back_marker :
    @decodePage crc32cChecksum ([69, 67, 48, 50, 7, 0, 0, 0] ++ [4, 0, 0, 0, 1, 69, 67, 48, 50]
        ++ [69, 67, 48, 50, 8, 0, 0, 0])
      = some ((Page.new 7).addRecord 1 pageMagic) :=
  (@pages_read_back crc32cChecksum [(Page.new 7).addRecord 1 pageMagic, .new 8]
    [[69, 67, 48, 50, 7, 0, 0, 0] ++ [4, 0, 0, 0, 1, 69, 67, 48, 50], [69, 67, 48, 50, 8, 0, 0, 0]]
    (by decide +kernel)).2.2

end EditChain.Store
