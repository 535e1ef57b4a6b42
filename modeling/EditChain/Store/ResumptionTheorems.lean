import EditChain.Store.ReaderTheorems
import EditChain.Store.ScanTheorems

/-!
# Scanning in parts

Whatever bytes it is given, a scanner ends, moves forward with every item, and yields records that
can be read back where they lie. A string that is scanned in two parts, the second from where the
first stopped, gives the same items and the same ending as the whole.
-/

namespace EditChain.Store

open Core Fallible ByteString UnitReader

variable [Checksum]

/-! ## Reading back -/

/-- A record that can be read back at its offset. -/
structure RecordRef.Lies (bytes : Bytes) (record : RecordRef) : Prop where
  data : (bytes.drop record.dataOffset).take record.data.length = record.data
  small : record.data.length ≤ maxRecordBytes
  checksum : ∀ sum, record.checksum = some sum → Checksum.checksum record.data = sum

omit [Checksum] in
lemma slice_lies {bytes data : Bytes} {offset stop : ℕ}
    (h : slice? (bytes.drop offset) 5 stop = some data) :
    (bytes.drop (offset + 5)).take data.length = data ∧ data.length = stop - 5 := by
  obtain ⟨hle, hstop, rfl⟩ := slice?_eq_some.mp h
  have hlength : ((bytes.drop offset).take stop).length = stop := by
    rw [List.length_take]
    omega
  rw [List.length_drop, hlength, List.drop_take, List.drop_drop]
  exact ⟨rfl, rfl⟩

lemma scanRecord_lies {bytes : Bytes} {offset : ℕ} {checked : CheckedRecord}
    (h : scanRecord (bytes.drop offset) = .ok checked) :
    (bytes.drop (offset + 5)).take checked.data.length = checked.data
      ∧ checked.data.length ≤ maxRecordBytes
      ∧ Checksum.checksum checked.data = checked.checksum := by
  unfold scanRecord at h
  simp only [bind_eq_ok, guard_eq_ok, pure_eq_ok, okOr_eq_ok] at h
  obtain ⟨size, -, hmax, data, hdata, flags, -, stored, -, hsum, rfl⟩ := h
  obtain ⟨hlies, hlength⟩ := slice_lies hdata
  exact ⟨hlies, by rw [hlength]; omega, not_not.mp hsum⟩

namespace PageScanner

lemma nextInFrame_lies {s t : PageScanner} {stop : ℕ} {item : ScanItem}
    (h : s.nextInFrame stop = (.ok item, t)) :
    t.bytes = s.bytes ∧ ∀ record, item = .record record → record.Lies s.bytes := by
  unfold nextInFrame at h
  split at h
  · cases h
  · next checked hchecked =>
    obtain ⟨hlies, hsmall, hsum⟩ := scanRecord_lies hchecked
    have hall : ∀ record : RecordRef, ScanItem.record ⟨s.pageSequence.getD 0, s.offset,
        s.offset + 5, checked.flags, checked.data, some checked.checksum⟩ = .record record →
        record.Lies s.bytes := by
      intro record heq
      cases heq
      refine ⟨hlies, hsmall, fun sum heq => ?_⟩
      cases heq
      exact hsum
    dsimp only at h
    split at h
    · cases h
      exact ⟨rfl, hall⟩
    · cases h
      exact ⟨rfl, hall⟩

lemma nextRecord_lies {s t : PageScanner} {page : UInt32} {head : Bytes} {item : ScanItem}
    (h : s.nextRecord page head = (.ok item, t)) :
    t.bytes = s.bytes ∧ ∀ record, item = .record record → record.Lies s.bytes := by
  unfold nextRecord at h
  dsimp only at h
  split at h
  · cases h
  · next hmax =>
    split at h
    · cases h
    · split at h
      · cases h
      · next data hdata =>
        cases h
        obtain ⟨hlies, hlength⟩ := slice_lies hdata
        refine ⟨rfl, fun record heq => ?_⟩
        cases heq
        exact ⟨hlies, by rw [hlength]; omega, fun sum hsum => by cases hsum⟩

/-- The scanner yields only records that can be read back. -/
lemma nextItem_lies {s t : PageScanner} {item : ScanItem} (h : s.nextItem = (.ok item, t)) :
    t.bytes = s.bytes ∧ ∀ record, item = .record record → record.Lies s.bytes := by
  unfold nextItem at h
  split at h
  · exact nextInFrame_lies h
  · split at h
    · cases h
    · split at h
      · unfold nextFrame at h
        split at h
        · cases h
        · dsimp only at h
          split at h
          · cases h
            exact ⟨rfl, fun record heq => by cases heq⟩
          · cases h
            exact ⟨rfl, fun record heq => by cases heq⟩
      · split at h
        · unfold nextPage at h
          split at h
          · cases h
          · cases h
            exact ⟨rfl, fun record heq => by cases heq⟩
        · split at h
          · cases h
          · split at h
            · cases h
            · exact nextRecord_lies h

/-- Nothing follows an error. -/
lemma collect_of_finished (fuel : ℕ) {s : PageScanner} (h : s.finished = true) :
    (s.collect fuel).1 = [] := by
  cases fuel with
  | zero => rfl
  | succ fuel => rw [collect, next, if_pos (.inl h)]

/-- What holds of every item that is read next holds of every item. -/
lemma collect_spec {bytes : Bytes} {p : ScanItem → Prop}
    (hstep : ∀ (s t : PageScanner) (item : ScanItem), s.bytes = bytes →
      s.nextItem = (.ok item, t) → t.bytes = bytes ∧ p item)
    {fuel : ℕ} {s : PageScanner} (hs : s.bytes = bytes) {item : ScanItem}
    (h : .ok item ∈ (s.collect fuel).1) : p item := by
  induction fuel generalizing s with
  | zero => cases h
  | succ fuel ih =>
    rw [collect, next] at h
    split at h
    · next hnone =>
      split at hnone
      · cases h
      · split at hnone <;> cases hnone
    · next found t hsome =>
      split at hsome
      · cases hsome
      · split at hsome
        · next first t' hitem =>
          cases hsome
          obtain ⟨hbytes, hfirst⟩ := hstep s t first hs hitem
          -- the item is the one that was read, or a later one
          rcases List.mem_cons.mp h with heq | hmem
          · rw [Except.ok.inj heq]
            exact hfirst
          · exact ih hbytes hmem
        · next error t' hitem =>
          cases hsome
          rcases List.mem_cons.mp h with heq | hmem
          · cases heq
          · rw [collect_of_finished fuel rfl] at hmem
            cases hmem

lemma collect_lies {fuel : ℕ} {s : PageScanner} {record : RecordRef}
    (h : .ok (.record record) ∈ (s.collect fuel).1) : record.Lies s.bytes := by
  have hall : ∀ found, ScanItem.record record = .record found → found.Lies s.bytes := by
    apply collect_spec
      (p := fun item => ∀ found, item = .record found → found.Lies s.bytes) _ rfl h
    intro u t item hu hitem
    obtain ⟨hbytes, hlies⟩ := nextItem_lies hitem
    rw [hu] at hbytes hlies
    exact ⟨hbytes, hlies⟩
  exact hall record rfl

end PageScanner

/-- Reading back is not disturbed by growth. -/
lemma readEncodedAt_grows {d d' : Directory} (h : d.Grows d') {location : OpRecordLocation}
    {bytes : Bytes} (hread : readEncodedAt d location = .ok bytes) :
    readEncodedAt d' location = .ok bytes := by
  unfold readEncodedAt at hread ⊢
  split at hread
  · cases hread
  · next hsmall =>
    rw [if_neg hsmall]
    split at hread
    · cases hread
    · next file hfile =>
      obtain ⟨file', hfile', hgrown⟩ := h.kept _ file hfile
      rw [hfile']
      dsimp only at hread ⊢
      split at hread
      · cases hread
      · next hlength =>
        obtain ⟨more, hmore⟩ := hgrown.bytes
        rw [not_not, List.length_take, List.length_drop] at hlength
        have hsame : (file'.bytes.drop location.dataOffset).take location.dataLen
            = (file.bytes.drop location.dataOffset).take location.dataLen := by
          rw [← hmore]
          by_cases hpos : location.dataLen = 0
          · rw [hpos, List.take_zero, List.take_zero]
          · rw [List.drop_append_of_le_length (by omega), List.take_append_of_le_length]
            rw [List.length_drop]
            omega
        rw [hsame, if_neg (by rw [not_not, List.length_take, List.length_drop]; exact hlength)]
        exact hread

lemma readOpAt_grows {Op : Type} [Schema Op] {d d' : Directory} (h : d.Grows d')
    {location : OpRecordLocation} {op : Op}
    (hread : readOpAt d location = .ok op) : readOpAt d' location = .ok op := by
  unfold readOpAt at hread ⊢
  obtain ⟨bytes, hbytes, hread⟩ := bind_eq_ok.mp hread
  rw [readEncodedAt_grows h hbytes]
  exact hread

/-- A record of a slice of a segment can be read back at its location. -/
lemma readEncodedAt_of_lies {d : Directory} {segment offset limit : ℕ} {file : SegmentFile}
    (hfile : d.segments[segment]? = some file) {record : RecordRef}
    (h : record.Lies ((file.bytes.drop offset).take limit)) :
    readEncodedAt d ⟨segment, offset + record.dataOffset, record.data.length, record.checksum⟩
      = .ok record.data := by
  have hdata : (file.bytes.drop (offset + record.dataOffset)).take record.data.length
      = record.data := by
    have hpart : ((file.bytes.drop offset).take limit).drop record.dataOffset
        <+: (file.bytes.drop offset).drop record.dataOffset := by
      rw [List.drop_take]
      exact List.take_prefix _ _
    obtain ⟨more, hmore⟩ := hpart
    have hlength := congrArg List.length h.data
    rw [List.length_take] at hlength
    rw [← List.drop_drop, ← hmore, List.take_append_of_le_length (by omega)]
    exact h.data
  unfold readEncodedAt
  rw [if_neg (Nat.not_lt.mpr h.small), hfile]
  dsimp only
  rw [hdata, if_neg (by simp), if_neg]
  intro hsum
  obtain ⟨sum, hchecksum, hne⟩ := (Option.any_eq_true _ _).mp hsum
  simp only [decide_eq_true_eq] at hne
  exact hne (h.checksum sum hchecksum)

/-- A record of a slice of a segment can be decoded at its location. -/
lemma readOpAt_of_lies {Op : Type} [Schema Op] {d : Directory} {segment offset limit : ℕ}
    {file : SegmentFile} (hfile : d.segments[segment]? = some file) {record : RecordRef}
    (h : record.Lies ((file.bytes.drop offset).take limit)) {op : Op}
    (hop : Schema.decodeOp record.data = .ok op) :
    readOpAt d ⟨segment, offset + record.dataOffset, record.data.length, record.checksum⟩
      = .ok op := by
  unfold readOpAt
  rw [readEncodedAt_of_lies hfile h]
  refine bind_eq_ok.mpr ⟨record.data, rfl, ?_⟩
  rw [hop]
  rfl

/-! ## Moving forward -/

/-- Where an item begins. -/
def ScanItem.offset : ScanItem → ℕ
  | .page _ offset => offset
  | .record found => found.offset

/-- Where an item begins, or where no item could be read. -/
def resultOffset : Except ScanError ScanItem → ℕ
  | .ok item => item.offset
  | .error error => error.offset

omit [Checksum] in
lemma slice_within {bytes data : Bytes} {offset stop : ℕ}
    (h : slice? (bytes.drop offset) 5 stop = some data) :
    offset + 5 + data.length ≤ bytes.length := by
  obtain ⟨hle, hstop, rfl⟩ := slice?_eq_some.mp h
  rw [List.length_drop] at hstop
  rw [List.length_drop, List.length_take, List.length_drop]
  omega

namespace PageScanner

/-- An item that was read: it began at the offset, the offset moved on, and a record ends inside the
bytes. -/
structure Advances (s t : PageScanner) (item : ScanItem) : Prop where
  bytes : t.bytes = s.bytes
  finished : t.finished = s.finished
  began : item.offset = s.offset
  moved : s.offset < t.offset
  within : ∀ record, item = .record record →
    record.dataOffset + record.data.length ≤ s.bytes.length

lemma nextInFrame_advances {s t : PageScanner} {stop : ℕ} {item : ScanItem}
    (h : s.nextInFrame stop = (.ok item, t)) : Advances s t item := by
  unfold nextInFrame at h
  split at h
  · cases h
  · next checked hchecked =>
    have hwithin : s.offset + 5 + checked.data.length ≤ s.bytes.length ∧ 0 < checked.length := by
      unfold scanRecord at hchecked
      simp only [bind_eq_ok, guard_eq_ok, pure_eq_ok, okOr_eq_ok] at hchecked
      obtain ⟨size, -, hmax, data, hdata, flags, -, stored, -, hsum, rfl⟩ := hchecked
      exact ⟨slice_within hdata, Nat.succ_pos _⟩
    dsimp only at h
    split at h
    · next hlast =>
      cases h
      refine ⟨rfl, rfl, rfl, ?_, fun record heq => ?_⟩
      · show s.offset < stop
        omega
      · cases heq
        exact hwithin.1
    · cases h
      refine ⟨rfl, rfl, rfl, ?_, fun record heq => ?_⟩
      · show s.offset < s.offset + checked.length
        omega
      · cases heq
        exact hwithin.1

lemma nextFrame_advances {s t : PageScanner} {item : ScanItem}
    (h : s.nextFrame = (.ok item, t)) : Advances s t item := by
  unfold nextFrame at h
  split at h
  · cases h
  · next frame hframe =>
    obtain ⟨records, -, -, -, hsize, -⟩ := exists_frame_records hframe
    dsimp only at h
    split at h
    · cases h
      refine ⟨rfl, rfl, rfl, ?_, fun record heq => by cases heq⟩
      show s.offset < s.offset + frame.length
      rw [hsize, frameSize, frameOverhead]
      omega
    · cases h
      refine ⟨rfl, rfl, rfl, ?_, fun record heq => by cases heq⟩
      show s.offset < s.offset + headerBytes
      unfold headerBytes
      omega

omit [Checksum] in
lemma nextRecord_advances {s t : PageScanner} {page : UInt32} {head : Bytes} {item : ScanItem}
    (h : s.nextRecord page head = (.ok item, t)) : Advances s t item := by
  unfold nextRecord at h
  dsimp only at h
  split at h
  · cases h
  · split at h
    · cases h
    · split at h
      · cases h
      · next data hdata =>
        cases h
        refine ⟨rfl, rfl, rfl, ?_, fun record heq => ?_⟩
        · show s.offset < s.offset + (5 + leNat head)
          omega
        · cases heq
          exact slice_within hdata

/-- Reading an item moves the scanner forward. -/
lemma nextItem_advances {s t : PageScanner} {item : ScanItem} (h : s.nextItem = (.ok item, t)) :
    Advances s t item := by
  unfold nextItem at h
  split at h
  · exact nextInFrame_advances h
  · split at h
    · cases h
    · split at h
      · exact nextFrame_advances h
      · split at h
        · unfold nextPage at h
          split at h
          · cases h
          · cases h
            refine ⟨rfl, rfl, rfl, ?_, fun record heq => by cases heq⟩
            show s.offset < s.offset + 8
            omega
        · split at h
          · cases h
          · split at h
            · cases h
            · exact nextRecord_advances h

/-- What cannot be read begins at the offset. -/
lemma nextItem_error {s t : PageScanner} {error : ScanError} (h : s.nextItem = (.error error, t)) :
    error.offset = s.offset := by
  unfold nextItem nextInFrame nextFrame nextPage nextRecord PageScanner.error at h
  dsimp only at h
  repeat' split at h
  all_goals cases h
  all_goals rfl

lemma collect_within {fuel : ℕ} {s : PageScanner} {record : RecordRef}
    (h : .ok (.record record) ∈ (s.collect fuel).1) :
    record.dataOffset + record.data.length ≤ s.bytes.length := by
  have hall : ∀ found, ScanItem.record record = .record found →
      found.dataOffset + found.data.length ≤ s.bytes.length := by
    apply collect_spec (p := fun item => ∀ found, item = .record found →
      found.dataOffset + found.data.length ≤ s.bytes.length) _ rfl h
    intro u t item hu hitem
    have hadvances := nextItem_advances hitem
    rw [← hu]
    exact ⟨hadvances.bytes, hadvances.within⟩
  exact hall record rfl

/-- The offsets of what is yielded increase. -/
lemma collect_increases (fuel : ℕ) (s : PageScanner) :
    ((s.collect fuel).1.map resultOffset).Pairwise (· < ·)
      ∧ ∀ result ∈ (s.collect fuel).1, s.offset ≤ resultOffset result := by
  induction fuel generalizing s with
  | zero => exact ⟨List.Pairwise.nil, fun result h => by cases h⟩
  | succ fuel ih =>
    by_cases hdone : s.finished ∨ s.offset = s.bytes.length
    · rw [collect, next, if_pos hdone]
      exact ⟨List.Pairwise.nil, fun result h => by cases h⟩
    · cases hitem : s.nextItem with
      | mk result t =>
        cases result with
        | error error =>
          rw [collect, next, if_neg hdone, hitem]
          dsimp only
          rw [collect_of_finished fuel rfl]
          refine ⟨List.pairwise_singleton _ _, fun result hresult => ?_⟩
          rw [List.mem_singleton.mp hresult]
          exact (nextItem_error hitem).ge
        | ok item =>
          obtain ⟨-, -, hbegan, hmoved, -⟩ := nextItem_advances hitem
          obtain ⟨hrest, hfrom⟩ := ih t
          rw [collect, next, if_neg hdone, hitem]
          dsimp only
          rw [List.map_cons, List.pairwise_cons]
          refine ⟨⟨fun offset hoffset => ?_, hrest⟩, fun result hresult => ?_⟩
          · obtain ⟨later, hlater, rfl⟩ := List.mem_map.mp hoffset
            have hle := hfrom later hlater
            show item.offset < _
            omega
          · rcases List.mem_cons.mp hresult with rfl | hlater
            · exact hbegan.ge
            · have hle := hfrom result hlater
              omega

/-! ## Resuming -/

/-- The items that were yielded. -/
def yielded (results : List (Except ScanError ScanItem)) : List ScanItem :=
  results.filterMap Except.toOption

/-- An outcome of a scan that began some bytes further on. -/
def shiftResult (n : ℕ) : Except ScanError ScanItem → Except ScanError ScanItem
  | .ok item => .ok (item.shift n)
  | .error error => .error ⟨n + error.offset, error.kind⟩

omit [Checksum] in
lemma yielded_append (items : List ScanItem) (consumed : ℕ) (ending : Ending ScanErrorKind) :
    yielded (items.map .ok ++ endError consumed ending) = items := by
  have hnone : yielded (endError consumed ending) = [] := by
    cases ending <;> rfl
  unfold yielded at hnone ⊢
  rw [List.filterMap_append, hnone, List.append_nil, List.filterMap_map]
  exact List.filterMap_some

omit [Checksum] in
/-- The items of a reading that began further on. -/
lemma unitItems_shift (n : ℕ) (units : List (ℕ × List ScanItem)) :
    unitItems (units.map fun u => (n + u.1, u.2)) = (unitItems units).map (·.shift n) := by
  unfold unitItems
  rw [List.flatMap_map, List.map_flatMap]
  congr 1
  funext u
  rw [List.map_map]
  congr 1
  funext item
  exact (ScanItem.shift_shift n u.1 item).symm

omit [Checksum] in
lemma endError_shift (n consumed : ℕ) (ending : Ending ScanErrorKind) :
    endError (n + consumed) ending = (endError consumed ending).map (shiftResult n) := by
  cases ending <;> rfl

omit [Checksum] in
lemma endError_toList (consumed : ℕ) (ending : Ending ScanErrorKind) :
    ∃ error : Option ScanError, endError consumed ending = error.toList.map .error := by
  cases ending with
  | clean => exact ⟨none, rfl⟩
  | more => exact ⟨some ⟨consumed, .incompleteTail⟩, rfl⟩
  | bad kind => exact ⟨some ⟨consumed, kind⟩, rfl⟩

/-- Being incomplete is not damage. -/
lemma chunk_ne_bad (page : Option UInt32) (x : Bytes) : chunk page x ≠ .bad .incompleteTail := by
  intro hbad
  by_cases hshort : x.length < 4
  · rw [chunk_of_lt hshort] at hbad
    cases hbad
  · have hhead : slice? x 0 4 = some ((x.take 4).drop 0) := slice?_of_le (Nat.zero_le 4) (by omega)
    rw [chunk_of_head hhead] at hbad
    cases hkind : unitKind page ((x.take 4).drop 0) <;> rw [hkind] at hbad <;>
      unfold UnitKind.read at hbad <;> dsimp only at hbad
    -- a frame, a page header and a record that are cut off are waited for
    · unfold frameChunk at hbad
      split at hbad
      · split at hbad <;> cases hbad
      · cases hbad
    · unfold pageChunk at hbad
      split at hbad <;> cases hbad
    · cases hbad
    · cases hbad
    · unfold recordChunk at hbad
      split at hbad
      · cases hbad
      · split at hbad <;> cases hbad

/-- A scan that ended cleanly or with an incomplete item. -/
def Undamaged (x : Bytes) : Prop :=
  ∀ error, .error error ∈ (PageScanner.new x).items.1 → error.kind = .incompleteTail

/-- The scan of `bytes` is the scan of its beginning `x`, without the error that ended it, followed
by the scan resumed from where that stopped. -/
structure Resumes (x bytes : Bytes) : Prop where
  items : (PageScanner.new bytes).items.1
    = (yielded (PageScanner.new x).items.1).map .ok
      ++ (resume (bytes.drop (PageScanner.new x).items.2.consumed)
          (PageScanner.new x).items.2.pageSequence).items.1.map
            (shiftResult (PageScanner.new x).items.2.consumed)
  consumed : (PageScanner.new bytes).items.2.consumed
    = (PageScanner.new x).items.2.consumed
      + (resume (bytes.drop (PageScanner.new x).items.2.consumed)
          (PageScanner.new x).items.2.pageSequence).items.2.consumed
  pageSequence : (PageScanner.new bytes).items.2.pageSequence
    = (resume (bytes.drop (PageScanner.new x).items.2.consumed)
          (PageScanner.new x).items.2.pageSequence).items.2.pageSequence

lemma ending_of_undamaged {x : Bytes} (h : Undamaged x) (kind : ScanErrorKind) :
    (pages.run none x).ending ≠ .bad kind := by
  intro hbad
  have hmem : .error ⟨(pages.run none x).consumed, kind⟩ ∈ (PageScanner.new x).items.1 := by
    show _ ∈ (resume x none).items.1
    rw [items_resume, hbad]
    exact List.mem_append_right _ (List.mem_singleton_self _)
  -- the only error there may be is that the last item is incomplete, which is no rejection
  have hkind : kind = .incompleteTail := h _ hmem
  have hchunk := next_of_bad hbad
  rw [hkind] at hchunk
  exact chunk_ne_bad _ _ hchunk

/-- A scan that found no damage is continued by the scan resumed from where it stopped. -/
lemma resumes_append {x : Bytes} (h : Undamaged x) (y : Bytes) : Resumes x (x ++ y) := by
  -- reading the whole is reading `x`, and reading on where that stopped
  have hrun := run_append none x y (ending_of_undamaged h)
  have hnew : ∀ bytes, PageScanner.new bytes = resume bytes none := fun _ => rfl
  constructor
  · rw [hnew, hnew, items_resume, items_resume, items_resume, hrun]
    simp only [Scan.prepend, Scan.shift, PageScanner.consumed]
    rw [unitItems_append, unitItems_shift, endError_shift, yielded_append, List.map_append,
      List.append_assoc, List.map_append, List.map_map, List.map_map]
    rfl
  · rw [hnew, hnew, items_resume, items_resume, items_resume, hrun]
    rfl
  · rw [hnew, hnew, items_resume, items_resume, items_resume, hrun]
    rfl

/-- More steps than there are bytes are enough for a scan, and nothing is left to yield. -/
lemma collect_eq_items (bytes : Bytes) (page : Option UInt32) {fuel : ℕ}
    (hfuel : bytes.length < fuel) :
    (resume bytes page).collect fuel = (resume bytes page).items
      ∧ (resume bytes page).items.2.next.1 = none := by
  have hcollect := collect_between bytes page bytes 0 fuel (Nat.zero_le _) rfl hfuel
  rw [Scan.shift_zero, Nat.zero_add] at hcollect
  rw [items_resume]
  refine ⟨hcollect, ?_⟩
  unfold next
  rw [if_pos]
  by_cases hclean : (pages.run page bytes).ending = .clean
  · exact .inr ((clean_iff_consumed _ _).mp hclean)
  · exact .inl (decide_eq_true hclean)

/-- Whatever the bytes, a scan ends, its offsets increase, at most one error is yielded, as the
last, and its records can be read back; a scan that found no damage can be resumed. -/
theorem scan_resumable (bytes : Bytes) :
    (∀ fuel, bytes.length < fuel → (PageScanner.new bytes).collect fuel
        = (PageScanner.new bytes).items ∧ (PageScanner.new bytes).items.2.next.1 = none)
      ∧ ((PageScanner.new bytes).items.1.map resultOffset).Pairwise (· < ·)
      ∧ (∃ (found : List ScanItem) (error : Option ScanError),
        (PageScanner.new bytes).items.1 = found.map .ok ++ error.toList.map .error)
      ∧ (∀ record, .ok (.record record) ∈ (PageScanner.new bytes).items.1 →
        record.Lies bytes ∧ record.dataOffset + record.data.length ≤ bytes.length
          ∧ ∀ (d : Directory) (segment offset : ℕ) (file : SegmentFile),
            d.segments[segment]? = some file → bytes <+: file.bytes.drop offset →
            readEncodedAt d
                ⟨segment, offset + record.dataOffset, record.data.length, record.checksum⟩
              = .ok record.data)
      ∧ ∀ x y, bytes = x ++ y → Undamaged x → Resumes x bytes := by
  have hnew : PageScanner.new bytes = resume bytes none := rfl
  refine ⟨fun fuel hfuel => collect_eq_items bytes none hfuel, (collect_increases _ _).1, ?_, ?_,
    fun x y hsplit h => ?_⟩
  · rw [hnew, items_resume]
    obtain ⟨error, herror⟩ := endError_toList (pages.run none bytes).consumed
      (pages.run none bytes).ending
    exact ⟨_, error, congrArg (_ ++ ·) herror⟩
  · intro record hrecord
    have hlies : record.Lies bytes := collect_lies hrecord
    refine ⟨hlies, collect_within hrecord, fun d segment offset file hfile hpart => ?_⟩
    have hbytes : (file.bytes.drop offset).take bytes.length = bytes :=
      (List.prefix_iff_eq_take.mp hpart).symm
    rw [← hbytes] at hlies
    exact readEncodedAt_of_lies hfile hlies
  · rw [hsplit]
    exact resumes_append h y

/-- An EC02 page with one record, written up to the middle of the record. -/
def cutPage : Bytes := pageMagic ++ [7, 0, 0, 0, 2, 0, 0, 0, 1, 65]

omit [Checksum] in
theorem scan_resumable_cut :
    @Undamaged crc32cChecksum cutPage ∧ @Resumes crc32cChecksum cutPage (cutPage ++ [66]) := by
  let checksum : Checksum := crc32cChecksum
  have hitems : (PageScanner.new cutPage).items.1
      = [.ok (.page 7 0), .error ⟨8, .incompleteTail⟩] := by decide +kernel
  have hcut : Undamaged cutPage := by
    intro error herror
    rw [hitems, List.mem_pair] at herror
    rcases herror with heq | heq
    · cases heq
    · rw [Except.error.inj heq]
  exact ⟨hcut, (scan_resumable (cutPage ++ [66])).2.2.2.2 _ _ rfl hcut⟩

end PageScanner
end EditChain.Store
