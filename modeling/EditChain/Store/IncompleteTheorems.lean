import EditChain.Store.Scan
import EditChain.Store.TailTheorems

/-!
# When a frame is reported as incomplete

`scan_frame` reports missing bytes where bytes are missing, and in one more case: where the records
of a complete frame with correct checksums leave fewer than four bytes although the header promises
further records. The check of the next record's length then asks for bytes behind the region.
-/

namespace EditChain.Store

open ByteString Fallible

variable [Checksum]

/-- Bytes of the frame at the front are missing: of its header, or of the length that its valid
header declares. -/
def Missing (bytes : Bytes) : Prop :=
  bytes.length < headerBytes ∨ ∃ length, scanHeader bytes = .ok length ∧ bytes.length < length

/-- The declared number of records. -/
def declaredCount (bytes : Bytes) : ℕ := leNat ((bytes.take 16).drop 12)

/-- The region of the records in a frame of some length. -/
def region (length : ℕ) (bytes : Bytes) : Bytes := (bytes.take (length - 4)).drop headerBytes

/-- A complete frame whose header and checksum are valid, that has room for its declared number of
records, and in which fewer intact records leave less than four bytes. -/
def Overcounted (bytes : Bytes) : Prop :=
  ∃ length, scanHeader bytes = .ok length ∧ length ≤ bytes.length
    ∧ Checksum.checksum (bytes.take (length - 4))
      = UInt32.ofNat (leNat ((bytes.take length).drop (length - 4)))
    ∧ declaredCount bytes ≤ (region length bytes).length / recordOverhead
    ∧ ∃ (records : List Record) (rest : Bytes),
      region length bytes = records.flatMap encodeRecord ++ rest
        ∧ (∀ record ∈ records, record.data.length ≤ maxRecordBytes)
        ∧ records.length < declaredCount bytes ∧ rest.length < 4

/-! ## Records -/

omit [Checksum] in
lemma okOr_length_ne {α : Type} (option : Option α) :
    okOr option .length ≠ .error .incomplete := by
  cases option <;> simp [okOr]

omit [Checksum] in
lemma okOr_some {α : Type} (a : α) (error : FrameError) : okOr (some a) error = .ok a := rfl

omit [Checksum] in
lemma okOr_length_incomplete {α : Type} {option : Option α} :
    (okOr option .length = .error .incomplete) ↔ False := by
  simp [okOr_length_ne]

/-- What is left of the region behind a record. -/
lemma from?_encodeRecord (record : Record) (rest : Bytes) :
    from? (encodeRecord record ++ rest) (checked record).length = some rest := by
  have hlen : (checked record).length = (encodeRecord record).length := by
    rw [length_encodeRecord]
    rfl
  unfold from?
  rw [hlen, if_pos (by simp), List.drop_left]

/-- Only the length prefix of a record asks for more bytes. -/
lemma scanRecord_incomplete_iff (bytes : Bytes) :
    scanRecord bytes = .error .incomplete ↔ bytes.length < 4 := by
  constructor
  · intro h
    by_contra hlong
    unfold scanRecord at h
    rw [array_of_le (by omega)] at h
    simp only [bind_eq_error, guard_eq_error, okOr_length_incomplete, pure_eq_error, reduceCtorEq,
      and_false, exists_false, or_false] at h
  · intro h
    unfold scanRecord
    rw [array_of_lt (by omega)]
    rfl

/-- A region asks for more bytes where intact records run out too early. -/
lemma scanRecords_incomplete_iff (count : ℕ) (bytes : Bytes) :
    scanRecords count bytes = .error .incomplete
      ↔ ∃ (records : List Record) (rest : Bytes), bytes = records.flatMap encodeRecord ++ rest
        ∧ (∀ record ∈ records, record.data.length ≤ maxRecordBytes)
        ∧ records.length < count ∧ rest.length < 4 := by
  induction count generalizing bytes with
  | zero => simp [scanRecords]
  | succ count ih =>
    rw [scanRecords]
    constructor
    · intro h
      rcases bind_eq_error.mp h with h | ⟨record, hrecord, h⟩
      · exact ⟨[], bytes, rfl, by simp, by simp, (scanRecord_incomplete_iff bytes).mp h⟩
      · rcases bind_eq_error.mp h with hslice | ⟨after, hafter, hafter'⟩
        · exact absurd hslice (okOr_length_ne _)
        · obtain ⟨record, rest, rfl, rfl, hsize⟩ := scanRecord_eq_ok hrecord
          rw [okOr_eq_ok, from?_encodeRecord] at hafter
          cases hafter
          obtain ⟨records, rest, rfl, hall, hcount, hrest⟩ := (ih after).mp hafter'
          refine ⟨record :: records, rest, ?_, ?_, by simpa using hcount, hrest⟩
          · rw [List.flatMap_cons, List.append_assoc]
          · simpa [hsize] using hall
    · rintro ⟨records, rest, rfl, hall, hcount, hrest⟩
      cases records with
      | nil =>
        rw [List.flatMap_nil, List.nil_append, (scanRecord_incomplete_iff rest).mpr hrest]
        rfl
      | cons record records =>
        rw [List.flatMap_cons, List.append_assoc,
          scanRecord_encodeRecord (hall record List.mem_cons_self)]
        show (do
          let after ← okOr (from? _ (checked record).length) .length
          scanRecords count after) = _
        rw [from?_encodeRecord]
        exact (ih _).mpr ⟨records, rest, rfl, fun r hr => hall r (List.mem_cons_of_mem _ hr),
          by simpa using hcount, hrest⟩

/-! ## Frames -/

/-- With a whole header, its check does not ask for more bytes. -/
lemma scanHeader_ne_incomplete {bytes : Bytes} (h : headerBytes ≤ bytes.length) :
    scanHeader bytes ≠ .error .incomplete := by
  have hlong : 32 ≤ bytes.length := h
  intro hscan
  unfold scanHeader at hscan
  simp only [array_of_le (show 0 + 4 ≤ bytes.length by omega),
    array_of_le (show 28 + 4 ≤ bytes.length by omega),
    array_of_le (show 4 + 2 ≤ bytes.length by omega),
    array_of_le (show 6 + 2 ≤ bytes.length by omega),
    array_of_le (show 24 + 4 ≤ bytes.length by omega),
    array_of_le (show 8 + 4 ≤ bytes.length by omega),
    slice?_of_le (Nat.zero_le _) h, List.drop_zero] at hscan
  simp only [bind_eq_error, guard_eq_error, okOr_length_incomplete, pure_eq_error, reduceCtorEq,
    and_false, exists_false, or_false, okOr_some] at hscan

/-- A complete frame is reported as incomplete only by its records. -/
lemma scanFrame_incomplete_iff {bytes : Bytes} {length : ℕ} (hheader : scanHeader bytes = .ok length)
    (hle : length ≤ bytes.length) :
    scanFrame bytes = .error .incomplete
      ↔ Checksum.checksum (bytes.take (length - 4))
          = UInt32.ofNat (leNat ((bytes.take length).drop (length - 4)))
        ∧ declaredCount bytes ≤ (region length bytes).length / recordOverhead
        ∧ scanRecords (declaredCount bytes) (region length bytes) = .error .incomplete := by
  obtain ⟨hlong, hmin, -⟩ := scanHeader_eq_ok hheader
  have hlong' : 32 ≤ bytes.length := hlong
  have hmin' : 36 ≤ length := hmin
  have hframe : (bytes.take length).length = length := by simp [hle]
  have hslice : slice? bytes 0 length = some (bytes.take length) :=
    slice?_of_le (Nat.zero_le _) hle
  have hbody : slice? (bytes.take length) 0 (length - 4) = some (bytes.take (length - 4)) := by
    rw [slice?_of_le (Nat.zero_le _) (by omega), List.drop_zero, List.take_take,
      Nat.min_eq_left (by omega)]
  have hstored : array 4 (bytes.take length) (length - 4)
      = .ok ((bytes.take length).drop (length - 4)) := by
    rw [array_of_le (by omega), Nat.sub_add_cancel (by omega), List.take_take, Nat.min_self]
  have hregion : slice? (bytes.take length) headerBytes (length - 4)
      = some (region length bytes) := by
    have hhead : headerBytes ≤ length - 4 := by
      show 32 ≤ length - 4
      omega
    rw [slice?_of_le hhead (by omega), List.take_take, Nat.min_eq_left (by omega)]
    rfl
  have hcount : array 4 bytes 12 = .ok ((bytes.take 16).drop 12) := array_of_le (by omega)
  have hsequence : array 8 bytes 16 = .ok ((bytes.take 24).drop 16) := array_of_le (by omega)
  unfold scanFrame
  simp only [hheader, hslice, hbody, hstored, hregion, hcount, hsequence, okOr_some, bind_eq_error,
    guard_eq_error, pure_eq_error, reduceCtorEq, and_false, false_or, exists_false, or_false,
    Except.ok.injEq, exists_eq_left', ne_eq, not_not, not_lt]
  rfl

/-- Incomplete frames: bytes are missing, or the records are counted wrongly. -/
lemma scanFrame_incomplete {bytes : Bytes} (h : scanFrame bytes = .error .incomplete) :
    Missing bytes ∨ Overcounted bytes := by
  by_cases hlong : headerBytes ≤ bytes.length
  · cases hheader : scanHeader bytes with
    | error error =>
      rw [scanFrame_of_header_error hheader] at h
      cases h
      exact absurd hheader (scanHeader_ne_incomplete hlong)
    | ok length =>
      by_cases hle : length ≤ bytes.length
      · obtain ⟨hsum, hcount, hrecords⟩ := (scanFrame_incomplete_iff hheader hle).mp h
        exact .inr ⟨length, hheader, hle, hsum, hcount,
          (scanRecords_incomplete_iff _ _).mp hrecords⟩
      · exact .inl (.inr ⟨length, hheader, by omega⟩)
  · exact .inl (.inl (by omega))

lemma Overcounted.incomplete {bytes : Bytes} (h : Overcounted bytes) :
    scanFrame bytes = .error .incomplete ∧ ¬ Missing bytes := by
  obtain ⟨length, hheader, hle, hsum, hcount, hrecords⟩ := h
  refine ⟨(scanFrame_incomplete_iff hheader hle).mpr
    ⟨hsum, hcount, (scanRecords_incomplete_iff _ _).mpr hrecords⟩, ?_⟩
  rintro (hshort | ⟨length', hheader', hshort⟩)
  · obtain ⟨hlong, -, -⟩ := scanHeader_eq_ok hheader
    omega
  · rw [hheader] at hheader'
    cases hheader'
    omega

/-! ## Scanners -/

/-- Missing bytes are all that a reader takes for an interrupted write: `scan_frame` reports nothing
else as incomplete, a scanner at the frame reports a tail only then, and stops with an error of the
frame where it is complete but not valid; inside a frame it never reports a tail. -/
structure TailsOnlyMissing (bytes : Bytes) : Prop where
  frame : scanFrame bytes = .error .incomplete → Missing bytes
  tail : ∀ s : PageScanner, s.frameEnd = none → s.bytes.drop s.offset = bytes →
    slice? bytes 0 4 = some magic →
      s.nextItem.1 = .error (s.error .incompleteTail) → Missing bytes
  stops : ∀ s : PageScanner, s.frameEnd = none → s.bytes.drop s.offset = bytes →
    slice? bytes 0 4 = some magic → ¬ Missing bytes → ∀ error, scanFrame bytes = .error error →
      s.nextItem.1 = .error (s.error (.frame error))
  inside : ∀ (s : PageScanner) (stop : ℕ), s.frameEnd = some stop → s.bytes.drop s.offset = bytes →
    ∀ offset, s.nextItem.1 ≠ .error ⟨offset, .incompleteTail⟩

lemma nextItem_of_frame {s : PageScanner} (hframe : s.frameEnd = none)
    (hmagic : slice? (s.bytes.drop s.offset) 0 4 = some magic) : s.nextItem = s.nextFrame := by
  unfold PageScanner.nextItem
  rw [hframe]
  simp only [hmagic, if_true]

lemma nextInFrame_ne_tail (s : PageScanner) (stop offset : ℕ) :
    (s.nextInFrame stop).1 ≠ .error ⟨offset, .incompleteTail⟩ := by
  unfold PageScanner.nextInFrame
  split
  · simp [PageScanner.error]
  · dsimp only
    split <;> simp

/-- A complete but invalid frame is an error and never a tail, except where its records are counted
wrongly. -/
theorem tails_only_missing_iff (bytes : Bytes) :
    TailsOnlyMissing bytes ↔ ¬ Overcounted bytes := by
  constructor
  · intro h hover
    obtain ⟨hincomplete, hmissing⟩ := hover.incomplete
    exact hmissing (h.frame hincomplete)
  · intro hover
    have hframe : scanFrame bytes = .error .incomplete → Missing bytes := by
      intro hincomplete
      exact (scanFrame_incomplete hincomplete).resolve_right hover
    refine ⟨hframe, ?_, ?_, ?_⟩
    · intro s hend hbytes hmagic htail
      subst hbytes
      rw [nextItem_of_frame hend hmagic] at htail
      unfold PageScanner.nextFrame at htail
      split at htail
      · next error hscan =>
        by_cases hcut : error = .incomplete
        · rw [hcut] at hscan
          exact hframe hscan
        · rw [if_neg hcut] at htail
          simp [PageScanner.error] at htail
      · dsimp only at htail
        split at htail <;> cases htail
    · intro s hend hbytes hmagic hmissing error hscan
      subst hbytes
      have hcut : error ≠ .incomplete := by
        rintro rfl
        exact hmissing (hframe hscan)
      rw [nextItem_of_frame hend hmagic]
      unfold PageScanner.nextFrame
      rw [hscan]
      simp only [if_neg hcut]
    · intro s stop hend _ offset
      unfold PageScanner.nextItem
      rw [hend]
      exact nextInFrame_ne_tail s stop offset

omit [Checksum] in
/-- One record of nine bytes in a frame that promises two. -/
theorem overcounted_taken_for_tail : ¬ @TailsOnlyMissing crc32cChecksum overcounted := by
  have hincomplete : @scanFrame crc32cChecksum overcounted = .error .incomplete := by
    decide +kernel
  have hheader : @scanHeader crc32cChecksum overcounted = .ok 54 := by decide +kernel
  have hlength : overcounted.length = 54 := by decide +kernel
  intro h
  rcases @TailsOnlyMissing.frame crc32cChecksum _ h hincomplete with hshort | ⟨length, hok, hshort⟩
  · rw [hlength] at hshort
    exact absurd hshort (by decide)
  · rw [hheader] at hok
    cases hok
    omega

end EditChain.Store
