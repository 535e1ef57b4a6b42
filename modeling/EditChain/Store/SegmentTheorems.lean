import EditChain.Lib.Outcome
import EditChain.Store.ReaderTheorems
import EditChain.Store.Segment

/-!
# The segment store survives torn writes

A segment written by the store is a sequence of whole frames and perhaps a torn last one: its
*shape*. All operations keep a directory of such shapes, numbered without a gap, whatever fails and
whenever; they only ever append to the last segment or start the next one, and never append behind
a torn frame.
-/

namespace EditChain.Store

open ByteString Fallible UnitReader

variable [Checksum]

/-! ## Shapes -/

/-- Whole frames and the beginning of one more. -/
structure Shape where
  frames : List (UInt32 × List Record)
  torn : Bytes

namespace Shape

/-- The bytes of a segment of this shape. -/
def bytes (s : Shape) : Bytes := s.frames.flatMap (fun f => frameBytes f.1 f.2) ++ s.torn

/-- The records of the whole frames. -/
def records (s : Shape) : List Record := s.frames.flatMap Prod.snd

/-- A proper part of a frame that can be written. -/
def Torn (x : Bytes) : Prop :=
  ∃ sequence records, Fits records ∧ x <+: frameBytes sequence records
    ∧ x.length < frameSize records

lemma torn_nil : Torn [] := ⟨0, [], ⟨by simp, by decide⟩, List.nil_prefix, by decide⟩

/-- Every frame can be written, and the torn one is part of a frame that can be written. -/
structure Valid (s : Shape) : Prop where
  frames : ∀ f ∈ s.frames, Fits f.2
  torn : Torn s.torn

end Shape

/-- The records among scanned items. -/
def itemRecords : List ScanItem → List Record
  | [] => []
  | .page _ _ :: rest => itemRecords rest
  | .record r :: rest => ⟨r.flags, r.data⟩ :: itemRecords rest

omit [Checksum] in
lemma itemRecords_append (xs ys : List ScanItem) :
    itemRecords (xs ++ ys) = itemRecords xs ++ itemRecords ys := by
  induction xs with
  | nil => rfl
  | cons item xs ih => cases item <;> simp [itemRecords, ih]

omit [Checksum] in
lemma itemRecords_shift (n : ℕ) (items : List ScanItem) :
    itemRecords (items.map (·.shift n)) = itemRecords items := by
  induction items with
  | nil => rfl
  | cons item items ih =>
    rw [List.map_cons]
    cases item with
    | page sequence offset => exact ih
    | record r => exact congrArg (_ :: ·) ih

lemma itemRecords_located (sequence : UInt32) (offset : ℕ) (records : List Record) :
    itemRecords (located sequence offset records) = records := by
  induction records generalizing offset with
  | nil => rfl
  | cons record records ih => simp [located, itemRecords, ih]

omit [Checksum] in
lemma itemRecords_unitItems (units : List (ℕ × List ScanItem)) :
    itemRecords (PageScanner.unitItems units) = units.flatMap fun u => itemRecords u.2 := by
  induction units with
  | nil => rfl
  | cons u units ih =>
    have hsplit : PageScanner.unitItems (u :: units)
        = u.2.map (·.shift u.1) ++ PageScanner.unitItems units := rfl
    rw [hsplit, itemRecords_append, itemRecords_shift, ih, List.flatMap_cons]

/-! ## Scanning a shape -/

/-- A written frame is one unit. -/
lemma chunk_frameBytes {records : List Record} (h : Fits records) (page : Option UInt32)
    (sequence : UInt32) (rest : Bytes) :
    ∃ items, chunk page (frameBytes sequence records ++ rest)
        = .unit items (frameSize records) none ∧ itemRecords items = records := by
  obtain ⟨tail, htail⟩ := frameBytes_eq sequence records rest
  have hmagic := (array_header (frameSize records) records.length sequence tail).1
  rw [← htail] at hmagic
  have hhead : slice? (frameBytes sequence records ++ rest) 0 4 = some magic := okOr_eq_ok.mp hmagic
  have hframe := scanFrame_frameBytes h sequence rest
  obtain ⟨found, hall, hregion, hitems, hlength, -⟩ := exists_frame_records hframe
  have hrecords : regionRecords (records.flatMap encodeRecord).length
      (records.flatMap encodeRecord) = records := by
    refine regionRecords_flatMap h.1 ?_
    have hmul := length_mul_le_flatMap records
    unfold recordOverhead at hmul
    omega
  refine ⟨FrameRef.items ⟨sequence, frameSize records, records.flatMap encodeRecord⟩, ?_, ?_⟩
  · rw [chunk_of_head hhead, unitKind_eq_frame.mpr rfl, UnitKind.read, frameChunk, hframe]
  · unfold FrameRef.items
    rw [hrecords, itemRecords, itemRecords_located]

/-- A torn frame is not a unit yet. -/
lemma chunk_torn {records : List Record} (h : Fits records) (page : Option UInt32)
    {sequence : UInt32} {x : Bytes} (hcut : x <+: frameBytes sequence records)
    (hlt : x.length < frameSize records) : chunk page x = .more := by
  by_cases hfour : x.length < 4
  · exact chunk_of_lt hfour
  · have hframe := scanFrame_of_cut h sequence hcut hlt
    obtain ⟨y, hy⟩ := hcut
    obtain ⟨tail, htail⟩ := frameBytes_eq sequence records []
    have hmagic := (array_header (frameSize records) records.length sequence tail).1
    rw [← htail, List.append_nil, ← hy, array_append (by omega)] at hmagic
    rw [chunk_of_head (okOr_eq_ok.mp hmagic), unitKind_eq_frame.mpr rfl, UnitKind.read, frameChunk,
      hframe]
    rfl

/-- Scanning a shape finds the records of its frames, and ends at the torn one. -/
lemma run_shape {s : Shape} (h : s.Valid) (page : Option UInt32) :
    itemRecords (PageScanner.unitItems (pages.run page s.bytes).units) = s.records
      ∧ (pages.run page s.bytes).ending = if s.torn = [] then .clean else .more := by
  obtain ⟨frames, torn⟩ := s
  rw [itemRecords_unitItems]
  induction frames generalizing page with
  | nil =>
    by_cases htorn : torn = []
    · simp [Shape.bytes, Shape.records, htorn]
    · obtain ⟨sequence, records, hfits, hcut, hlt⟩ := h.torn
      have hmore : pages.next page torn = .more :=
        (next_pages _ _).trans (chunk_torn hfits page hcut hlt)
      simp [Shape.bytes, Shape.records, htorn, run_of_more htorn hmore]
  | cons f frames ih =>
    have hrest : Shape.Valid ⟨frames, torn⟩ := ⟨fun g hg => h.frames g (by simp [hg]), h.torn⟩
    have hbytes : Shape.bytes ⟨f :: frames, torn⟩
        = frameBytes f.1 f.2 ++ Shape.bytes ⟨frames, torn⟩ := by
      simp [Shape.bytes]
    obtain ⟨items, hunit, hitems⟩ :=
      chunk_frameBytes (h.frames f (by simp)) page f.1 (Shape.bytes ⟨frames, torn⟩)
    have hdrop : (frameBytes f.1 f.2 ++ Shape.bytes ⟨frames, torn⟩).drop (frameSize f.2)
        = Shape.bytes ⟨frames, torn⟩ := List.drop_left' (length_frameBytes f.1 f.2)
    have hnext : pages.next page (frameBytes f.1 f.2 ++ Shape.bytes ⟨frames, torn⟩)
        = .unit items (frameSize f.2) none := (next_pages _ _).trans hunit
    obtain ⟨hrecords, hending⟩ := ih none hrest
    rw [hbytes, run_of_unit hnext, hdrop]
    refine ⟨?_, hending⟩
    simp only [Scan.prepend, Scan.shift, List.cons_append, List.nil_append, List.flatMap_cons,
      List.flatMap_map, hitems]
    rw [hrecords]
    rfl

omit [Checksum] in
lemma visitItems_append (items : List ScanItem) (rest : List (Except ScanError ScanItem)) :
    SegmentStore.visitItems (items.map .ok ++ rest) = (do
      let (records, tails) ← SegmentStore.visitItems rest
      return (itemRecords items ++ records, tails)) := by
  induction items with
  | nil =>
    show SegmentStore.visitItems rest = _
    cases SegmentStore.visitItems rest <;> rfl
  | cons item items ih =>
    cases item with
    | page sequence offset =>
      simp only [List.map_cons, List.cons_append, SegmentStore.visitItems, itemRecords, ih]
    | record r =>
      simp only [List.map_cons, List.cons_append, SegmentStore.visitItems, itemRecords, ih]
      cases SegmentStore.visitItems rest <;> rfl

omit [Checksum] in
lemma endsIncomplete_append (items : List ScanItem) (rest : List (Except ScanError ScanItem)) :
    SegmentStore.endsIncomplete (items.map .ok ++ rest) = SegmentStore.endsIncomplete rest := by
  induction items with
  | nil => rfl
  | cons item items ih =>
    rw [List.map_cons, List.cons_append, SegmentStore.endsIncomplete, ih]

/-- What the store and its readers see of a segment. -/
lemma items_shape {s : Shape} (h : s.Valid) :
    SegmentStore.visitItems (PageScanner.new s.bytes).items.1
        = .ok (s.records, if s.torn = [] then 0 else 1)
      ∧ SegmentStore.endsIncomplete (PageScanner.new s.bytes).items.1
        = .ok (decide (s.torn ≠ []))
      ∧ ∀ error, .error error ∈ (PageScanner.new s.bytes).items.1 →
          error.kind = .incompleteTail := by
  obtain ⟨hrecords, hending⟩ := run_shape h none
  have hitems := congrArg Prod.fst (PageScanner.items_resume s.bytes none)
  simp only at hitems
  rw [show PageScanner.new s.bytes = PageScanner.resume s.bytes none from rfl, hitems,
    visitItems_append, endsIncomplete_append, hrecords, hending]
  by_cases htorn : s.torn = []
  · simp [htorn, PageScanner.endError, SegmentStore.visitItems, SegmentStore.endsIncomplete, bind,
      Except.bind, pure, Except.pure]
  · simp [htorn, PageScanner.endError, SegmentStore.visitItems, SegmentStore.endsIncomplete, bind,
      Except.bind, pure, Except.pure]

/-! ## Directories of shapes -/

/-- The directory holds segments of these shapes, numbered from zero, and nothing else. -/
structure Holds (d : Directory) (shapes : List Shape) : Prop where
  segments : ∀ n : ℕ, d.segments[n]?.map SegmentFile.bytes = shapes[n]?.map Shape.bytes
  valid : ∀ s ∈ shapes, s.Valid
  bounded : shapes.length ≤ sequenceLimit
  marker : d.packingMarker = none ∨ d.packingMarker = some packingVersion
  named : d.misnamed = none
  settled : d.migrating = false

/-- The records of all segments. -/
def allRecords (shapes : List Shape) : List Record := shapes.flatMap Shape.records

lemma Holds.isSome {d : Directory} {shapes : List Shape} (h : Holds d shapes) (n : ℕ) :
    d.segments[n]?.isSome ↔ n < shapes.length := by
  rw [← Option.isSome_map (f := SegmentFile.bytes), h.segments, Option.isSome_map]
  simp

/-- Segment numbers are contiguous. -/
lemma Holds.segmentSequences {d : Directory} {shapes : List Shape} (h : Holds d shapes) :
    d.segmentSequences = .ok (List.range shapes.length) := by
  have hkeys := keys_eq_range h.isSome
  unfold Directory.segmentSequences
  rw [h.named, hkeys, List.range_eq_range',
    if_pos (contiguous_range' 0 _ (by simpa using h.bounded))]

lemma Holds.read {d : Directory} {shapes : List Shape} (h : Holds d shapes) {n : ℕ} {s : Shape}
    (hs : shapes[n]? = some s) : d.read n = .ok s.bytes := by
  have hsegment := h.segments n
  rw [hs, Option.map_some] at hsegment
  obtain ⟨file, hfile, hbytes⟩ := Option.map_eq_some_iff.mp hsegment
  simp [Directory.read, hfile, hbytes]

/-- The number of torn segments. -/
def tornCount (shapes : List Shape) : ℕ :=
  (shapes.map fun s => if s.torn = [] then 0 else 1).sum

lemma visitSegments_range' {d : Directory} {shapes : List Shape} (h : Holds d shapes) (a : ℕ)
    {rest : List Shape} (hrest : shapes.drop a = rest) :
    SegmentStore.visitSegments d (List.range' a rest.length)
      = .ok (allRecords rest, tornCount rest) := by
  induction rest generalizing a with
  | nil => rfl
  | cons s rest ih =>
    have hs : shapes[a]? = some s := by
      rw [← List.head?_drop, hrest]
      rfl
    have hvalid := h.valid s (List.mem_of_getElem? hs)
    have hnext := ih (a + 1) (by rw [← List.drop_drop, hrest]; rfl)
    rw [List.length_cons, List.range'_succ, SegmentStore.visitSegments, h.read hs, hnext]
    simp only [bind, Except.bind, (items_shape hvalid).1, pure, Except.pure]
    rfl

/-- Visiting yields the records of all whole frames, in order. -/
lemma Holds.visitRecords {d : Directory} {shapes : List Shape} (h : Holds d shapes) :
    SegmentStore.visitRecords d = .ok (allRecords shapes, ⟨tornCount shapes⟩) := by
  unfold SegmentStore.visitRecords
  have hvisit := visitSegments_range' h 0 (List.drop_zero (l := shapes))
  simp only [h.segmentSequences, bind, Except.bind, List.range_eq_range', hvisit, pure, Except.pure]

/-! ## Visiting any directory -/

/-- The complete records of a segment, in whatever format. -/
def Directory.recordsOf (d : Directory) (n : ℕ) : List Record :=
  itemRecords (PageScanner.unitItems (pages.run none (d.bytesAt n)).units)

/-- The complete records of the first segments. -/
def Directory.recordsBelow (d : Directory) (k : ℕ) : List Record :=
  (List.range k).flatMap d.recordsOf

omit [Checksum] in
lemma map_data_itemRecords (items : List ScanItem) :
    (itemRecords items).map Record.data = (recordRefs items).map RecordRef.data := by
  induction items with
  | nil => rfl
  | cons item items ih =>
    cases item with
    | page sequence offset => exact ih
    | record r => exact congrArg (r.data :: ·) ih

/-- A record that was read fits. -/
lemma length_le_of_chunk {page next : Option UInt32} {x : Bytes} {items : List ScanItem} {n : ℕ}
    (h : chunk page x = .unit items n next) :
    ∀ r ∈ itemRecords items, r.data.length ≤ maxRecordBytes := by
  by_cases hlt : x.length < 4
  · rw [chunk_of_lt hlt] at h
    cases h
  · rw [chunk_of_head (slice?_of_le (s := x) (Nat.zero_le 4) (by omega))] at h
    cases hkind : unitKind page ((x.take 4).drop 0) with
    | frame =>
      rw [hkind] at h
      obtain ⟨frame, hframe, rfl, -, -⟩ := frameChunk_eq_unit h
      obtain ⟨records, hall, -, hitems, -, -⟩ := exists_frame_records hframe
      rw [hitems, itemRecords, itemRecords_located]
      exact hall
    | page =>
      rw [hkind] at h
      obtain ⟨field, -, rfl, -, -⟩ := pageChunk_eq_unit h
      simp [itemRecords]
    | unsupported =>
      rw [hkind] at h
      cases h
    | orphan =>
      rw [hkind] at h
      cases h
    | record sequence =>
      rw [hkind] at h
      obtain ⟨flags, data, hmax, -, hdata, rfl, -, -⟩ := recordChunk_eq_unit h
      have hlength := length_slice? hdata
      simp only [itemRecords, List.mem_singleton, forall_eq]
      omega

lemma length_le_of_run (page : Option UInt32) (x : Bytes) :
    ∀ r ∈ itemRecords (PageScanner.unitItems (pages.run page x).units),
      r.data.length ≤ maxRecordBytes := by
  rw [itemRecords_unitItems]
  induction page, x using run_induction (R := pages) with
  | nil page => simp
  | more page x hx hmore => simp [run_of_more hx hmore]
  | bad page x e hx hbad => simp [run_of_bad hx hbad]
  | unit page x items n next hunit ih =>
    rw [run_of_unit hunit]
    intro r hr
    obtain ⟨u, hu, hru⟩ := List.mem_flatMap.mp hr
    rcases List.mem_cons.mp hu with rfl | hu
    · exact length_le_of_chunk hunit r hru
    · obtain ⟨v, hv, rfl⟩ := List.mem_map.mp hu
      exact ih r (List.mem_flatMap.mpr ⟨v, hv, hru⟩)

lemma length_le_of_recordsBelow {d : Directory} {k : ℕ} {r : Record}
    (h : r ∈ d.recordsBelow k) : r.data.length ≤ maxRecordBytes := by
  obtain ⟨n, -, hr⟩ := List.mem_flatMap.mp h
  exact length_le_of_run none (d.bytesAt n) r hr

/-- A visited segment is soundly framed, and all its complete records are handed out. -/
lemma visitItems_eq_ok {bytes : Bytes} {records : List Record} {tails : ℕ}
    (h : SegmentStore.visitItems (PageScanner.new bytes).items.1 = .ok (records, tails)) :
    (∀ e, (pages.run none bytes).ending ≠ .bad e)
      ∧ records = itemRecords (PageScanner.unitItems (pages.run none bytes).units) := by
  rw [show PageScanner.new bytes = PageScanner.resume bytes none from rfl,
    PageScanner.items_resume] at h
  simp only [visitItems_append] at h
  obtain ⟨⟨last, count⟩, hlast, h⟩ := bind_eq_ok.mp h
  cases hending : (pages.run none bytes).ending with
  | clean =>
    rw [hending] at hlast
    cases hlast
    cases h
    exact ⟨by simp, by simp⟩
  | more =>
    rw [hending] at hlast
    cases hlast
    cases h
    exact ⟨by simp, by simp⟩
  | bad kind =>
    have hkind : kind ≠ .incompleteTail := by
      rintro rfl
      exact run_ne_bad_incompleteTail none bytes hending
    rw [hending] at hlast
    unfold PageScanner.endError SegmentStore.visitItems at hlast
    rw [if_neg hkind] at hlast
    cases hlast

lemma visitSegments_eq_ok {d : Directory} {a m : ℕ} {records : List Record} {tails : ℕ}
    (h : SegmentStore.visitSegments d (List.range' a m) = .ok (records, tails)) :
    (∀ n, a ≤ n → n < a + m → ∀ e, (pages.run none (d.bytesAt n)).ending ≠ .bad e)
      ∧ records = (List.range' a m).flatMap d.recordsOf := by
  induction m generalizing a records tails with
  | zero =>
    cases h
    exact ⟨fun n hle hlt => absurd hlt (by omega), rfl⟩
  | succ m ih =>
    rw [List.range'_succ] at h ⊢
    unfold SegmentStore.visitSegments at h
    obtain ⟨bytes, hread, h⟩ := bind_eq_ok.mp h
    obtain ⟨⟨own, ownTails⟩, hitems, h⟩ := bind_eq_ok.mp h
    obtain ⟨⟨others, otherTails⟩, hrest, h⟩ := bind_eq_ok.mp h
    cases h
    have hbytes : d.bytesAt a = bytes := by
      unfold Directory.read at hread
      unfold Directory.bytesAt
      split at hread
      · next file hfile =>
        cases hread
        simp [hfile]
      · cases hread
    obtain ⟨hsound, hown⟩ := visitItems_eq_ok hitems
    obtain ⟨hsounds, hothers⟩ := ih hrest
    refine ⟨fun n hle hlt => ?_, ?_⟩
    · by_cases heq : n = a
      · rw [heq, hbytes]
        exact hsound
      · exact hsounds n (by omega) (by omega)
    · rw [List.flatMap_cons, hothers, hown, Directory.recordsOf, hbytes]

/-- Only a readable directory is visited to its end, and all its complete records are handed out. -/
lemma visitRecords_eq_ok {d : Directory} {records : List Record} {stats : LogReadStats}
    (h : SegmentStore.visitRecords d = .ok (records, stats)) :
    d.Readable d.segments.size ∧ records = d.recordsBelow d.segments.size := by
  unfold SegmentStore.visitRecords at h
  obtain ⟨sequences, hsequences, h⟩ := bind_eq_ok.mp h
  obtain ⟨⟨visited, tails⟩, hvisit, h⟩ := bind_eq_ok.mp h
  cases h
  obtain ⟨rfl, -, hdense⟩ := segmentSequences_eq_ok hsequences
  obtain ⟨hsound, hrecords⟩ := visitSegments_eq_ok hvisit
  refine ⟨⟨hdense, fun n e => ?_⟩, ?_⟩
  · by_cases hn : n < d.segments.size
    · exact hsound n (Nat.zero_le _) (by omega) e
    · rw [bytesAt_of_dense hdense (by omega)]
      simp
  · rw [hrecords, Directory.recordsBelow, List.range_eq_range']

/-! ## Sound stores -/

/-- The current segment can be appended to: it is not torn, and its length is known. -/
def Ready (shapes : List Shape) (store : SegmentStore) : Prop :=
  match shapes[store.nextSeq]? with
  | none => store.length = 0
  | some s => s.torn = [] ∧ store.length = s.bytes.length

/-- The invariant of an open store over a directory of shapes. -/
structure Good (w : Writer) (shapes : List Shape) : Prop where
  holds : Holds w.directory shapes
  /-- The current segment is the last one, or the one after it. -/
  current : shapes.length = w.store.nextSeq ∨ shapes.length = w.store.nextSeq + 1
  bounded : w.store.nextSeq < sequenceLimit
  locked : w.directory.lock = .held
  ready : w.store.needsRecovery = false → Ready shapes w.store

namespace SegmentStore

omit [Checksum] in
lemma exec_check (fault : Option IoError) (w : Writer) :
    (check fault).exec w = match fault with
      | some error => (.error error, w)
      | none => (.ok (), w) := by
  cases fault <;> rfl

omit [Checksum] in
lemma exec_update (f : SegmentStore → SegmentStore) (w : Writer) :
    (update f).exec w = (.ok (), { w with store := f w.store }) := rfl

omit [Checksum] in
/-- What a rotation can do. -/
lemma rotate_cases {fault : Option IoError} {w w' : Writer} {r : Except IoError Unit}
    (h : (rotate fault).exec w = (r, w')) :
    (∃ error, fault = some error ∧ r = .error error ∧ w' = w)
      ∨ (w.directory.segments[w.store.nextSeq]? = none ∧ r = .ok () ∧ w' = w)
      ∨ (w.directory.segments[w.store.nextSeq]? ≠ none ∧ w.store.nextSeq + 1 < sequenceLimit
        ∧ r = .ok ()
        ∧ w' = { w with store := { w.store with nextSeq := w.store.nextSeq + 1, length := 0 } })
      ∨ (w.directory.segments[w.store.nextSeq]? ≠ none ∧ sequenceLimit ≤ w.store.nextSeq + 1
        ∧ r = .error sequenceExhausted ∧ w' = w) := by
  unfold rotate at h
  rw [exec_bind, exec_check] at h
  cases fault with
  | some error =>
    cases h
    exact .inl ⟨error, rfl, rfl, rfl⟩
  | none =>
    simp only at h
    rw [exec_bind_of_ok (exec_get w)] at h
    by_cases hnone : w.directory.segments[w.store.nextSeq]? = none
    · rw [if_pos hnone] at h
      cases h
      exact .inr (.inl ⟨hnone, rfl, rfl⟩)
    · rw [if_neg hnone] at h
      by_cases hlimit : w.store.nextSeq + 1 < sequenceLimit
      · rw [if_pos hlimit] at h
        cases h
        exact .inr (.inr (.inl ⟨hnone, hlimit, rfl, rfl⟩))
      · rw [if_neg hlimit] at h
        cases h
        exact .inr (.inr (.inr ⟨hnone, by omega, rfl, rfl⟩))

/-- Every segment number is in use. -/
def Exhausted (d : Directory) : Prop := d.segments[sequenceLimit - 1]? ≠ none

/-- An error is one of the injected ones, or the segment sequence is exhausted. -/
def Explained (injected : List IoError) (d : Directory) (error : IoError) : Prop :=
  error ∈ injected ∨ (error = sequenceExhausted ∧ Exhausted d)

omit [Checksum] in
lemma Explained.mono {xs ys : List IoError} {d : Directory} {error : IoError} (hsub : xs ⊆ ys)
    (h : Explained xs d error) : Explained ys d error :=
  h.imp (fun hmem => hsub hmem) id

/-- Only the position in the directory changed. -/
structure Kept (w w' : Writer) : Prop where
  directory : w'.directory = w.directory
  maxSegmentBytes : w'.store.maxSegmentBytes = w.store.maxSegmentBytes
  initializeLayout : w'.store.initializeLayout = w.store.initializeLayout

omit [Checksum] in
lemma Kept.trans {w w' w'' : Writer} (h : Kept w w') (h' : Kept w' w'') : Kept w w'' :=
  ⟨h'.1.trans h.1, h'.2.trans h.2, h'.3.trans h.3⟩

/-- After a rotation away from an existing segment the store is ready to start the next one. -/
lemma ready_next {w : Writer} {shapes : List Shape} (hw : Good w shapes)
    (hsome : w.directory.segments[w.store.nextSeq]? ≠ none) :
    shapes.length = w.store.nextSeq + 1
      ∧ Ready shapes { w.store with nextSeq := w.store.nextSeq + 1, length := 0 } := by
  have hlt := (hw.holds.isSome w.store.nextSeq).mp (Option.isSome_iff_ne_none.mpr hsome)
  have hlen : shapes.length = w.store.nextSeq + 1 := by
    rcases hw.current with h | h <;> omega
  have hnone : shapes[w.store.nextSeq + 1]? = none := List.getElem?_eq_none (by omega)
  refine ⟨hlen, ?_⟩
  show match shapes[w.store.nextSeq + 1]? with | none => (0 = 0) | some _ => _
  rw [hnone]

/-- A rotation keeps the invariant. -/
lemma rotate_good {fault : Option IoError} {w w' : Writer} {r : Except IoError Unit}
    {shapes : List Shape} (hw : Good w shapes) (h : (rotate fault).exec w = (r, w')) :
    Good w' shapes ∧ Kept w w' ∧ w'.store.needsRecovery = w.store.needsRecovery
      ∧ (r = .ok () → w.directory.segments[w.store.nextSeq]? ≠ none → Ready shapes w'.store)
      ∧ ∀ error, r = .error error → Explained fault.toList w'.directory error := by
  rcases rotate_cases h with ⟨e, rfl, rfl, rfl⟩ | ⟨hnone, rfl, rfl⟩ | ⟨hsome, hlimit, rfl, rfl⟩ |
    ⟨hsome, hlimit, rfl, rfl⟩
  · refine ⟨hw, ⟨rfl, rfl, rfl⟩, rfl, fun hr => (by cases hr), ?_⟩
    intro error herror
    cases herror
    exact .inl (by simp)
  · exact ⟨hw, ⟨rfl, rfl, rfl⟩, rfl, fun _ hsome => absurd hnone hsome,
      fun _ herror => (by cases herror)⟩
  · obtain ⟨hlen, hready⟩ := ready_next hw hsome
    exact ⟨⟨hw.holds, .inl hlen, hlimit, hw.locked, fun _ => hready⟩, ⟨rfl, rfl, rfl⟩, rfl,
      fun _ _ => hready, fun _ herror => (by cases herror)⟩
  · refine ⟨hw, ⟨rfl, rfl, rfl⟩, rfl, fun hr => (by cases hr), ?_⟩
    intro error herror
    cases herror
    have hbounded := hw.bounded
    have hlast : w'.store.nextSeq = sequenceLimit - 1 := by omega
    rw [hlast] at hsome
    exact .inr ⟨rfl, hsome⟩

/-- Recovery keeps the invariant, and leaves a segment that can be appended to. -/
lemma recoverFrontier_good {readFault rotateFault : Option IoError} {w w' : Writer}
    {r : Except IoError Unit} {shapes : List Shape} (hw : Good w shapes)
    (h : (recoverFrontier readFault rotateFault).exec w = (r, w')) :
    Good w' shapes ∧ Kept w w' ∧ (r = .ok () → w'.store.needsRecovery = false)
      ∧ ∀ error, r = .error error → Explained (readFault.toList ++ rotateFault.toList) w'.directory error := by
  unfold recoverFrontier at h
  rw [exec_bind, exec_check] at h
  cases readFault with
  | some e =>
    cases h
    refine ⟨hw, ⟨rfl, rfl, rfl⟩, fun hr => (by cases hr), ?_⟩
    intro error herror
    cases herror
    exact .inl (by simp)
  | none =>
    simp only at h
    rw [exec_bind_of_ok (exec_get w)] at h
    cases hfile : w.directory.segments[w.store.nextSeq]? with
    | none =>
      rw [hfile] at h
      cases h
      have hnone : shapes[w.store.nextSeq]? = none := by
        rw [← Option.map_eq_none_iff (f := Shape.bytes), ← hw.holds.segments, hfile]
        rfl
      refine ⟨⟨hw.holds, hw.current, hw.bounded, hw.locked, fun _ => ?_⟩, ⟨rfl, rfl, rfl⟩,
        fun _ => rfl, fun _ herror => (by cases herror)⟩
      show match shapes[w.store.nextSeq]? with | none => (0 = 0) | some _ => _
      rw [hnone]
    | some file =>
      -- the rescanned segment has a valid shape, so only its tail can be incomplete
      have hbytes := hw.holds.segments w.store.nextSeq
      rw [hfile, Option.map_some] at hbytes
      obtain ⟨s, hs, hsbytes⟩ := Option.map_eq_some_iff.mp hbytes.symm
      have hscan := (items_shape (hw.holds.valid s (List.mem_of_getElem? hs))).2.1
      rw [hsbytes] at hscan
      rw [hfile] at h
      simp only at h
      rw [exec_bind_of_ok (exec_update _ w), exec_bind, exec_lift, hscan] at h
      simp only at h
      set measured : Writer := { w with store := { w.store with length := file.bytes.length } }
        with hmeasured
      have hgood : Good measured shapes := by
        refine ⟨hw.holds, hw.current, hw.bounded, hw.locked, fun hn => ?_⟩
        have hready := hw.ready hn
        unfold Ready at hready ⊢
        rw [hs] at hready
        rw [show shapes[measured.store.nextSeq]? = some s from hs]
        exact ⟨hready.1, by rw [hsbytes]⟩
      by_cases hleave : decide (s.torn ≠ []) = true ∨ w.store.maxSegmentBytes ≤ file.bytes.length
      · rw [if_pos hleave, exec_bind] at h
        cases hrotate : (rotate rotateFault).exec measured with
        | mk r₁ w₁ =>
          obtain ⟨hgood₁, hkept, hneeds₁, hready, herror⟩ := rotate_good hgood hrotate
          rw [hrotate] at h
          cases r₁ with
          | error e =>
            cases h
            refine ⟨hgood₁, ⟨hkept.1, hkept.2, hkept.3⟩, fun hr => (by cases hr), ?_⟩
            intro error heq
            exact (herror error heq).mono (by simp)
          | ok u =>
            cases h
            have hsome : w.directory.segments[w.store.nextSeq]? ≠ none := by simp [hfile]
            exact ⟨⟨hgood₁.holds, hgood₁.current, hgood₁.bounded, hgood₁.locked,
              fun _ => hready rfl hsome⟩, ⟨hkept.1, hkept.2, hkept.3⟩, fun _ => rfl,
              fun _ heq => (by cases heq)⟩
      · rw [if_neg hleave] at h
        cases h
        have htorn : s.torn = [] := by
          by_contra hne
          exact hleave (.inl (by simpa using hne))
        refine ⟨⟨hw.holds, hw.current, hw.bounded, hw.locked, fun _ => ?_⟩, ⟨rfl, rfl, rfl⟩,
          fun _ => rfl, fun _ heq => (by cases heq)⟩
        show match shapes[w.store.nextSeq]? with
          | none => file.bytes.length = 0
          | some s => s.torn = [] ∧ file.bytes.length = s.bytes.length
        rw [hs]
        exact ⟨htorn, by rw [hsbytes]⟩

/-! ## Writing a frame -/

/-- The directory grows, and its new whole frames hold the records `added`. -/
structure Extends (d d' : Directory) (shapes shapes' : List Shape) (added : List Record) : Prop where
  grows : d.Grows d'
  records : allRecords shapes' = allRecords shapes ++ added

omit [Checksum] in
lemma allRecords_append (xs ys : List Shape) :
    allRecords (xs ++ ys) = allRecords xs ++ allRecords ys := by
  simp [allRecords]

omit [Checksum] in
/-- Nothing was written. -/
lemma Extends.of_segments {d d' : Directory} (h : d'.segments = d.segments) (shapes : List Shape) :
    Extends d d' shapes shapes [] :=
  ⟨.of_segments h, by simp⟩

omit [Checksum] in
lemma Extends.trans {d d' d'' : Directory} {xs ys zs : List Shape} {added more : List Record}
    (h : Extends d d' xs ys added) (h' : Extends d' d'' ys zs more) :
    Extends d d'' xs zs (added ++ more) :=
  ⟨h.grows.trans h'.grows, by rw [h'.records, h.records, List.append_assoc]⟩

/-- The shape of the current segment; a segment that is not there is empty. -/
def currentShape (shapes : List Shape) (store : SegmentStore) : Shape :=
  shapes[store.nextSeq]?.getD ⟨[], []⟩

/-- The shapes after the current segment has been replaced. -/
def replaceCurrent (shapes : List Shape) (store : SegmentStore) (s : Shape) : List Shape :=
  shapes.take store.nextSeq ++ [s]

omit [Checksum] in
lemma getElem?_replaceCurrent {shapes : List Shape} {store : SegmentStore}
    (h : store.nextSeq ≤ shapes.length) (s : Shape) (n : ℕ) :
    (replaceCurrent shapes store s)[n]?
      = if n < store.nextSeq then shapes[n]? else if n = store.nextSeq then some s else none := by
  unfold replaceCurrent
  have hlen : (shapes.take store.nextSeq).length = store.nextSeq := by simpa using h
  by_cases hlt : n < store.nextSeq
  · rw [if_pos hlt, List.getElem?_append_left (by omega), List.getElem?_take_of_lt hlt]
  · rw [if_neg hlt, List.getElem?_append_right (by omega), hlen]
    by_cases heq : n = store.nextSeq
    · simp [heq]
    · rw [if_neg heq, List.getElem?_eq_none (by simp; omega)]

omit [Checksum] in
/-- All shapes are those before the current one, and the current one. -/
lemma allRecords_current {w : Writer} {shapes : List Shape}
    (h : shapes.length = w.store.nextSeq ∨ shapes.length = w.store.nextSeq + 1) :
    allRecords shapes
      = allRecords (shapes.take w.store.nextSeq) ++ (currentShape shapes w.store).records := by
  unfold currentShape
  rcases h with hlen | hlen
  · rw [List.getElem?_eq_none (by omega), List.take_of_length_le (by omega)]
    simp [Shape.records]
  · have hsplit := List.take_append_drop w.store.nextSeq shapes
    have hdrop : shapes.drop w.store.nextSeq = [shapes[w.store.nextSeq]] := by
      rw [List.drop_eq_getElem_cons (by omega), List.drop_of_length_le (by omega)]
    rw [List.getElem?_eq_getElem (by omega), Option.getD_some]
    nth_rewrite 1 [← hsplit]
    rw [hdrop, allRecords_append]
    simp [allRecords]

/-- The bytes of the current file are those of its shape. -/
lemma currentFile_bytes {w : Writer} {shapes : List Shape} (hw : Good w shapes) (io : AppendIo) :
    (currentFile w io).bytes = (currentShape shapes w.store).bytes := by
  unfold currentFile currentShape
  have hsegment := hw.holds.segments w.store.nextSeq
  cases hfile : w.directory.segments[w.store.nextSeq]? with
  | none =>
    rw [hfile] at hsegment
    rw [Option.map_eq_none_iff.mp hsegment.symm]
    rfl
  | some file =>
    rw [hfile] at hsegment
    obtain ⟨s, hs, hbytes⟩ := Option.map_eq_some_iff.mp hsegment.symm
    rw [hs]
    exact hbytes.symm

/-- The writer after some bytes have been appended to the current segment. -/
def written (w : Writer) (io : AppendIo) (bytes : Bytes) : Writer :=
  ((writeBytes io bytes).exec w).2

omit [Checksum] in
lemma exec_writeBytes (w : Writer) (io : AppendIo) (bytes : Bytes) :
    (writeBytes io bytes).exec w = (.ok (), written w io bytes) := rfl

/-- Bytes are appended to the last segment, or start the next one. -/
lemma written_grows {w : Writer} {shapes : List Shape} (hw : Good w shapes) (io : AppendIo)
    (bytes : Bytes) : w.directory.Grows (written w io bytes).directory := by
  have hsegments : (written w io bytes).directory.segments
      = w.directory.segments.insert w.store.nextSeq
        ⟨(currentFile w io).bytes ++ bytes, (currentFile w io).identity,
          if bytes = [] then (currentFile w io).modified else io.modified⟩ := rfl
  refine ⟨fun n file hfile => ?_, fun m n hmn hn => ?_⟩
  · rw [hsegments, Std.ExtTreeMap.getElem?_insert]
    by_cases heq : w.store.nextSeq = n
    · have hcurrent : currentFile w io = file := by
        unfold currentFile
        rw [heq, hfile]
        rfl
      rw [if_pos (by simp [heq]), hcurrent]
      refine ⟨_, rfl, rfl, List.prefix_append _ _, fun hlen => ?_⟩
      have hnil : bytes = [] := by
        rw [List.length_append] at hlen
        exact List.length_eq_zero_iff.mp (by omega)
      rw [if_pos hnil]
    · rw [if_neg (by simpa using heq)]
      exact ⟨file, hfile, .refl file⟩
  · have hlt := (hw.holds.isSome n).mp (Option.isSome_iff_ne_none.mpr hn)
    have hne : w.store.nextSeq ≠ m := by
      rcases hw.current with h | h <;> omega
    rw [hsegments, Std.ExtTreeMap.getElem?_insert, if_neg (by simpa using hne)]

/-- What was appended adds its records to those of all segments. -/
lemma extends_written {w : Writer} {shapes : List Shape} (hw : Good w shapes) (io : AppendIo)
    (bytes : Bytes) {s : Shape} {added : List Record}
    (hrecords : s.records = (currentShape shapes w.store).records ++ added) :
    Extends w.directory (written w io bytes).directory shapes (replaceCurrent shapes w.store s)
      added := by
  refine ⟨written_grows hw io bytes, ?_⟩
  rw [replaceCurrent, allRecords_append, allRecords_current hw.current, List.append_assoc,
    ← hrecords]
  simp [allRecords]

/-- Appended bytes that turn the current shape into another valid shape. -/
lemma written_good {w : Writer} {shapes : List Shape} (hw : Good w shapes)
    (hneeds : w.store.needsRecovery = true) (io : AppendIo) {bytes : Bytes} {s : Shape}
    (hs : s.Valid) (hbytes : s.bytes = (currentShape shapes w.store).bytes ++ bytes) :
    Good (written w io bytes) (replaceCurrent shapes w.store s) := by
  have hle : w.store.nextSeq ≤ shapes.length := by rcases hw.current with h | h <;> omega
  have hbounded := hw.bounded
  have hlen : (replaceCurrent shapes w.store s).length = w.store.nextSeq + 1 := by
    simp [replaceCurrent, hle]
  refine ⟨⟨fun n => ?_, ?_, by omega, hw.holds.marker, hw.holds.named, hw.holds.settled⟩,
    .inr hlen, hw.bounded, hw.locked, fun hfalse => ?_⟩
  · rw [getElem?_replaceCurrent hle]
    show (w.directory.segments.insert w.store.nextSeq _)[n]?.map _ = _
    rw [Std.ExtTreeMap.getElem?_insert]
    by_cases heq : n = w.store.nextSeq
    · subst heq
      rw [if_pos (by simp), if_neg (lt_irrefl w.store.nextSeq), if_pos rfl, Option.map_some,
        Option.map_some, hbytes, ← currentFile_bytes hw io]
    · rw [if_neg (by simpa using Ne.symm heq), if_neg heq, hw.holds.segments]
      by_cases hlt : n < w.store.nextSeq
      · rw [if_pos hlt]
      · rw [if_neg hlt, List.getElem?_eq_none (by rcases hw.current with h | h <;> omega)]
  · intro t ht
    rcases List.mem_append.mp ht with ht | ht
    · exact hw.holds.valid t (List.mem_of_mem_take ht)
    · rw [List.mem_singleton.mp ht]
      exact hs
  · rw [show (written w io bytes).store.needsRecovery = true from hneeds] at hfalse
    cases hfalse

/-- A ready store's current segment is not torn. -/
lemma currentShape_torn {shapes : List Shape} {store : SegmentStore} (h : Ready shapes store) :
    (currentShape shapes store).torn = [] := by
  unfold Ready at h
  unfold currentShape
  cases hs : shapes[store.nextSeq]? with
  | none => rfl
  | some s =>
    rw [hs] at h
    exact h.1

lemma currentShape_valid {w : Writer} {shapes : List Shape} (hw : Good w shapes) :
    (currentShape shapes w.store).Valid := by
  unfold currentShape
  cases hs : shapes[w.store.nextSeq]? with
  | none =>
    exact ⟨by simp, Shape.torn_nil⟩
  | some s => exact hw.holds.valid s (List.mem_of_getElem? hs)

/-- Any part of a frame behind a healthy segment leaves whole frames, perhaps the new one, and
perhaps a torn one. -/
lemma exists_shape {s : Shape} (hs : s.Valid) (htorn : s.torn = []) {records : List Record}
    (hfits : Fits records) {sequence : UInt32} {x : Bytes}
    (hx : x <+: frameBytes sequence records) :
    ∃ (s' : Shape) (added : List Record), s'.Valid ∧ s'.bytes = s.bytes ++ x ∧ s'.records = s.records ++ added
      ∧ (x = frameBytes sequence records ∧ s'.torn = [] ∧ added = records
        ∨ x ≠ frameBytes sequence records ∧ added = []) := by
  have hbytes : s.bytes = s.frames.flatMap fun f => frameBytes f.1 f.2 := by
    simp [Shape.bytes, htorn]
  by_cases hall : x = frameBytes sequence records
  · refine ⟨⟨s.frames ++ [(sequence, records)], []⟩, records, ⟨?_, ?_⟩, ?_, ?_,
      .inl ⟨hall, rfl, rfl⟩⟩
    · intro f hf
      rcases List.mem_append.mp hf with hf | hf
      · exact hs.frames f hf
      · rw [List.mem_singleton.mp hf]
        exact hfits
    · exact Shape.torn_nil
    · rw [hbytes, hall]
      simp [Shape.bytes]
    · simp [Shape.records]
  · have hlt : x.length < frameSize records := by
      rw [← length_frameBytes sequence records]
      exact lt_of_le_of_ne hx.length_le fun heq => hall (hx.eq_of_length heq)
    refine ⟨⟨s.frames, x⟩, [], ⟨hs.frames, sequence, records, hfits, hx, hlt⟩, ?_, ?_,
      .inr ⟨hall, rfl⟩⟩
    · rw [hbytes]
      rfl
    · simp [Shape.records]

/-! ## Appending a page -/

/-- The errors the file system injects into an append. -/
def injected (io : AppendIo) : List IoError :=
  io.recoverRead.toList ++ io.recoverRotate.toList ++ io.rotate.toList ++ io.openFile.toList
    ++ (io.persist.map Prod.snd).toList ++ (io.marker.map Prod.snd).toList ++ io.metadata.toList

/-- An append of records that do not fit changes nothing; of others it prepares and writes. -/
lemma exec_appendPage (page : Page) (io : AppendIo) (w : Writer) :
    (appendPage page io).exec w
      = if Fits page.records then
          (do prepare io (frameSize page.records)
              writeFrame io (frameBytes page.pageSeq page.records)).exec w
        else (.error ⟨.invalidInput, FrameError.length.display⟩, w) := by
  unfold appendPage
  rw [exec_bind, exec_lift, encodeRecords_eq]
  by_cases hfits : Fits page.records
  · rw [if_pos hfits, if_pos hfits]
    simp only [length_frameBytes]
  · rw [if_neg hfits, if_neg hfits]

/-- A rotation by size keeps a store that needs no recovery so. -/
lemma rotateFull_good {io : AppendIo} {w w' : Writer} {r : Except IoError Unit} {n : ℕ}
    {shapes : List Shape} (hw : Good w shapes)
    (h : (if 0 < w.store.length ∧ w.store.maxSegmentBytes < w.store.length + n then rotate io.rotate
      else pure () : Fallible IoError Writer Unit).exec w = (r, w')) :
    Good w' shapes ∧ Kept w w' ∧ w'.store.needsRecovery = w.store.needsRecovery
      ∧ ∀ error, r = .error error → Explained (injected io) w'.directory error := by
  by_cases hfull : 0 < w.store.length ∧ w.store.maxSegmentBytes < w.store.length + n
  · rw [if_pos hfull] at h
    obtain ⟨hgood, hkept, hneeds, -, herror⟩ := rotate_good hw h
    refine ⟨hgood, hkept, hneeds, fun error heq => (herror error heq).mono ?_⟩
    intro e he
    simp [injected, he]
  · rw [if_neg hfull] at h
    cases h
    exact ⟨hw, ⟨rfl, rfl, rfl⟩, rfl, fun _ heq => (by cases heq)⟩

/-- Preparation keeps the invariant and leaves a segment that can be appended to. -/
lemma prepare_good {io : AppendIo} {w w' : Writer} {r : Except IoError Unit} {n : ℕ}
    {shapes : List Shape} (hw : Good w shapes) (h : (prepare io n).exec w = (r, w')) :
    Good w' shapes ∧ Kept w w' ∧ (r = .ok () → w'.store.needsRecovery = false)
      ∧ ∀ error, r = .error error → Explained (injected io) w'.directory error := by
  unfold prepare at h
  rw [exec_bind_of_ok (exec_get w)] at h
  by_cases hneeds : w.store.needsRecovery = true
  · rw [if_pos hneeds, exec_bind] at h
    cases hrecover : (recoverFrontier io.recoverRead io.recoverRotate).exec w with
    | mk r₁ w₁ =>
      obtain ⟨hgood, hkept, hrecovered, herror⟩ := recoverFrontier_good hw hrecover
      rw [hrecover] at h
      cases r₁ with
      | error e =>
        cases h
        refine ⟨hgood, hkept, fun hr => (by cases hr), fun error heq =>
          (herror error heq).mono ?_⟩
        intro e' he'
        rcases List.mem_append.mp he' with he' | he' <;> simp [injected, he']
      | ok u =>
        simp only at h
        rw [exec_bind_of_ok (exec_get w₁)] at h
        obtain ⟨hgood', hkept', hneeds', herror'⟩ := rotateFull_good hgood h
        exact ⟨hgood', hkept.trans hkept', fun _ => hneeds'.trans (hrecovered rfl), herror'⟩
  · rw [if_neg hneeds, exec_bind_of_ok (exec_get w)] at h
    obtain ⟨hgood, hkept, hneeds', herror⟩ := rotateFull_good hw h
    exact ⟨hgood, hkept, fun _ => hneeds'.trans (by simpa using hneeds), herror⟩

/-- Publishing the marker keeps the invariant of a store that is about to be recovered. -/
lemma publishLayout_good {io : AppendIo} {w w' : Writer} {r : Except IoError Unit}
    {shapes : List Shape} (hw : Good w shapes) (h : (publishLayout io).exec w = (r, w')) :
    Good w' shapes ∧ w'.directory.segments = w.directory.segments
      ∧ w'.store = { w.store with initializeLayout := w'.store.initializeLayout }
      ∧ ∀ error, r = .error error → error ∈ injected io := by
  have hpublished : ∀ store' : SegmentStore,
      store' = { w.store with initializeLayout := store'.initializeLayout } →
      Good ⟨{ w.directory with packingMarker := some packingVersion }, store'⟩ shapes := by
    intro store' hstore
    refine ⟨⟨hw.holds.segments, hw.holds.valid, hw.holds.bounded, .inr rfl, hw.holds.named,
      hw.holds.settled⟩, ?_, ?_, hw.locked, ?_⟩
    · rw [hstore]
      exact hw.current
    · rw [hstore]
      exact hw.bounded
    · rw [hstore]
      exact hw.ready
  unfold publishLayout at h
  cases hmarker : io.marker with
  | none =>
    rw [hmarker] at h
    cases h
    exact ⟨hpublished _ rfl, rfl, rfl, fun _ heq => (by cases heq)⟩
  | some fault =>
    obtain ⟨published, e⟩ := fault
    rw [hmarker] at h
    have herror : e ∈ injected io := by simp [injected, hmarker]
    cases published with
    | true =>
      cases h
      refine ⟨hpublished _ rfl, rfl, rfl, fun error heq => ?_⟩
      cases heq
      exact herror
    | false =>
      cases h
      refine ⟨hw, rfl, rfl, fun error heq => ?_⟩
      cases heq
      exact herror

/-- What one append leaves behind: the invariant, and all or nothing of the records. -/
structure Appended (w w' : Writer) (shapes : List Shape) (records : List Record)
    (r : Except IoError Unit) : Prop where
  outcome : ∃ shapes' added, Good w' shapes'
    ∧ Extends w.directory w'.directory shapes shapes' added
    ∧ (added = [] ∨ added = records) ∧ (r = .ok () → added = records)
  maxSegmentBytes : w'.store.maxSegmentBytes = w.store.maxSegmentBytes

/-- An append that fails where all shapes are kept. -/
lemma Appended.of_good {w w' : Writer} {shapes : List Shape} {records : List Record} {e : IoError}
    (hgood : Good w' shapes) (hdir : w'.directory = w.directory)
    (hmax : w'.store.maxSegmentBytes = w.store.maxSegmentBytes) :
    Appended w w' shapes records (.error e) :=
  ⟨⟨shapes, [], hgood, .of_segments (by rw [hdir]) shapes, .inl rfl, fun hr => (by cases hr)⟩,
    hmax⟩

/-- The end of an append, after the frame is written. -/
lemma finish_good {io : AppendIo} {w w' : Writer} {r : Except IoError Unit} {shapes : List Shape}
    (hw : Good w shapes) (htorn : (currentShape shapes w.store).torn = [])
    (hsome : w.directory.segments[w.store.nextSeq]? ≠ none)
    (h : (do check io.metadata
             let w ← get
             update fun s =>
              { s with length := (currentFile w io).bytes.length, needsRecovery := false }
            : Fallible IoError Writer Unit).exec w = (r, w')) :
    Good w' shapes ∧ w'.directory = w.directory
      ∧ w'.store.maxSegmentBytes = w.store.maxSegmentBytes
      ∧ ∀ error, r = .error error → error ∈ injected io := by
  rw [exec_bind, exec_check] at h
  cases hmeta : io.metadata with
  | some e =>
    rw [hmeta] at h
    cases h
    refine ⟨hw, rfl, rfl, fun error heq => ?_⟩
    cases heq
    simp [injected, hmeta]
  | none =>
    rw [hmeta] at h
    cases h
    refine ⟨⟨hw.holds, hw.current, hw.bounded, hw.locked, fun _ => ?_⟩, rfl, rfl,
      fun _ heq => (by cases heq)⟩
    have hlt := (hw.holds.isSome w.store.nextSeq).mp (Option.isSome_iff_ne_none.mpr hsome)
    have hs : shapes[w.store.nextSeq]? = some shapes[w.store.nextSeq] :=
      List.getElem?_eq_getElem hlt
    have hlength := congrArg List.length (currentFile_bytes hw io)
    show match shapes[w.store.nextSeq]? with
      | none => (currentFile w io).bytes.length = 0
      | some s => s.torn = [] ∧ (currentFile w io).bytes.length = s.bytes.length
    unfold currentShape at htorn hlength
    rw [hs] at htorn hlength ⊢
    exact ⟨htorn, hlength⟩

/-- Writing a frame behind a healthy segment keeps the invariant, whatever fails. -/
lemma writeFrame_good {io : AppendIo} {w w' : Writer} {r : Except IoError Unit}
    {shapes : List Shape} {sequence : UInt32} {records : List Record} (hw : Good w shapes)
    (hready : Ready shapes w.store) (hfits : Fits records)
    (h : (writeFrame io (frameBytes sequence records)).exec w = (r, w')) :
    Appended w w' shapes records r ∧ ∀ error, r = .error error → error ∈ injected io := by
  unfold writeFrame at h
  rw [exec_bind_of_ok (exec_update _ w), exec_bind, exec_check] at h
  set opened : Writer := { w with store := { w.store with needsRecovery := true } }
  have hopened : Good opened shapes :=
    ⟨hw.holds, hw.current, hw.bounded, hw.locked, fun hn => (by cases hn)⟩
  have htorn : (currentShape shapes opened.store).torn = [] := currentShape_torn hready
  have hvalid := currentShape_valid hopened
  cases hopen : io.openFile with
  | some e =>
    rw [hopen] at h
    obtain ⟨rfl, rfl⟩ := Prod.mk.inj h
    refine ⟨.of_good hopened rfl rfl, fun error heq => ?_⟩
    cases heq
    simp [injected, hopen]
  | none =>
    rw [hopen] at h
    simp only at h
    unfold persist at h
    cases hpersist : io.persist with
    | some fault =>
      -- a failed write leaves any part of the frame
      obtain ⟨n, e⟩ := fault
      rw [hpersist] at h
      simp only at h
      rw [exec_bind, exec_bind_of_ok (exec_writeBytes opened io _), exec_throw] at h
      cases h
      obtain ⟨s, added, hs, hbytes, hrecords, hcase⟩ :=
        exists_shape hvalid htorn hfits (List.take_prefix n (frameBytes sequence records))
      refine ⟨⟨⟨replaceCurrent shapes opened.store s, added, written_good hopened rfl io hs hbytes,
        extends_written hopened io _ hrecords, ?_, fun hr => (by cases hr)⟩, rfl⟩,
        fun error heq => ?_⟩
      · rcases hcase with ⟨-, -, hadded⟩ | ⟨-, hadded⟩
        · exact .inr hadded
        · exact .inl hadded
      · cases heq
        simp [injected, hpersist]
    | none =>
      rw [hpersist] at h
      simp only at h
      rw [exec_bind_of_ok (exec_writeBytes opened io _), exec_bind_of_ok (exec_get _)] at h
      obtain ⟨s, added, hs, hbytes, hrecords, ⟨-, hstorn, rfl⟩ | ⟨hne, -⟩⟩ :=
        exists_shape hvalid htorn hfits (List.prefix_refl (frameBytes sequence records))
      · have hgood := written_good hopened rfl io hs hbytes
        have hextends := extends_written hopened io (frameBytes sequence added) hrecords
        set after := written opened io (frameBytes sequence added)
        have hle : opened.store.nextSeq ≤ shapes.length := by
          rcases hopened.current with h | h <;> omega
        have hcurrent : currentShape (replaceCurrent shapes opened.store s) after.store = s := by
          show ((replaceCurrent shapes opened.store s)[opened.store.nextSeq]?).getD _ = s
          rw [getElem?_replaceCurrent hle, if_neg (lt_irrefl _), if_pos rfl, Option.getD_some]
        have hsome : after.directory.segments[after.store.nextSeq]? ≠ none := by
          show (opened.directory.segments.insert opened.store.nextSeq _)[opened.store.nextSeq]? ≠ none
          simp
        by_cases hlayout : after.store.initializeLayout = true
        · rw [if_pos hlayout, exec_bind] at h
          cases hpublish : (publishLayout io).exec after with
          | mk r₁ w₁ =>
            obtain ⟨hgood₁, hsegments, hstore, herror⟩ := publishLayout_good hgood hpublish
            have hextends₁ : Extends w.directory w₁.directory shapes
                (replaceCurrent shapes opened.store s) added := by
              simpa using hextends.trans (.of_segments hsegments _)
            rw [hpublish] at h
            have hmax : w₁.store.maxSegmentBytes = w.store.maxSegmentBytes := by
              rw [hstore]
              rfl
            cases r₁ with
            | error e =>
              cases h
              exact ⟨⟨⟨_, added, hgood₁, hextends₁, .inr rfl, fun _ => rfl⟩, hmax⟩, herror⟩
            | ok u =>
              have hnext : w₁.store.nextSeq = after.store.nextSeq := by rw [hstore]
              have hcurrent₁ : (currentShape (replaceCurrent shapes opened.store s) w₁.store).torn
                  = [] := by
                unfold currentShape at hcurrent ⊢
                rw [hnext, hcurrent, hstorn]
              obtain ⟨hgood₂, hdir₂, hmax₂, herror₂⟩ :=
                finish_good hgood₁ hcurrent₁ (by rw [hnext, hsegments]; exact hsome) h
              rw [← hdir₂] at hextends₁
              exact ⟨⟨⟨_, added, hgood₂, hextends₁, .inr rfl, fun _ => rfl⟩, hmax₂.trans hmax⟩,
                herror₂⟩
        · rw [if_neg hlayout] at h
          obtain ⟨hgood₂, hdir₂, hmax₂, herror₂⟩ :=
            finish_good hgood (by rw [hcurrent, hstorn]) hsome h
          rw [← hdir₂] at hextends
          exact ⟨⟨⟨_, added, hgood₂, hextends, .inr rfl, fun _ => rfl⟩, hmax₂⟩, herror₂⟩
      · exact absurd rfl hne

/-- An append keeps the invariant and adds all of its page or nothing. -/
lemma appendPage_good {page : Page} {io : AppendIo} {w w' : Writer} {r : Except IoError Unit}
    {shapes : List Shape} (hw : Good w shapes) (h : (appendPage page io).exec w = (r, w')) :
    Appended w w' shapes page.records r
      ∧ ∀ error, r = .error error → Fits page.records → Explained (injected io) w'.directory error := by
  rw [exec_appendPage] at h
  by_cases hfits : Fits page.records
  · rw [if_pos hfits, exec_bind] at h
    cases hprepare : (prepare io (frameSize page.records)).exec w with
    | mk r₁ w₁ =>
      obtain ⟨hgood, hkept, hneeds, herror⟩ := prepare_good hw hprepare
      rw [hprepare] at h
      cases r₁ with
      | error e =>
        cases h
        exact ⟨.of_good hgood hkept.directory hkept.maxSegmentBytes, fun error heq _ => herror error heq⟩
      | ok u =>
        obtain ⟨happended, herror'⟩ :=
          writeFrame_good hgood (hgood.ready (hneeds rfl)) hfits h
        refine ⟨⟨?_, happended.maxSegmentBytes.trans hkept.maxSegmentBytes⟩,
          fun error heq _ => .inl (herror' error heq)⟩
        have houtcome := happended.outcome
        rwa [hkept.directory] at houtcome
  · rw [if_neg hfits] at h
    cases h
    exact ⟨.of_good hw rfl rfl, fun _ _ habsurd => absurd habsurd hfits⟩

/-! ## Appending records -/

/-- The records of each page that an `append_records` call writes, from a page that is being
filled. -/
def pagesFrom (target : ℕ) : List Record → List Record → ℕ → List (List Record)
  | [], page, _ => if page ≠ [] then [page] else []
  | record :: records, page, length =>
    let added := record.data.length + recordOverhead
    if page ≠ [] ∧ target < length + added then
      page :: pagesFrom target records [record] (frameOverhead + added)
    else pagesFrom target records (page ++ [record]) (length + added)

/-- The records of each page that an `append_records` call writes. -/
def pagesOf (maxSegmentBytes : ℕ) (records : List Record) : List (List Record) :=
  pagesFrom (min frameTargetBytes maxSegmentBytes) records [] frameOverhead

omit [Checksum] in
lemma flatten_pagesFrom (target : ℕ) (records page : List Record) (length : ℕ) :
    (pagesFrom target records page length).flatten = page ++ records := by
  induction records generalizing page length with
  | nil =>
    unfold pagesFrom
    by_cases hpage : page = [] <;> simp [hpage]
  | cons record records ih =>
    unfold pagesFrom
    by_cases hfull : page ≠ [] ∧ target < length + (record.data.length + recordOverhead)
    · rw [if_pos hfull, List.flatten_cons, ih]
      rfl
    · rw [if_neg hfull, ih, List.append_assoc]
      rfl

omit [Checksum] in
/-- Pages of acceptable records fit: a page is within the target or holds a single record. -/
lemma fits_of_mem_pagesFrom {target : ℕ} (htarget : target ≤ frameTargetBytes)
    {records page : List Record} {length : ℕ} (hlength : length = frameSize page)
    (hpage : Fits page) (hrecords : ∀ record ∈ records, record.data.length ≤ maxRecordBytes) :
    ∀ p ∈ pagesFrom target records page length, Fits p := by
  induction records generalizing page length with
  | nil =>
    intro p hp
    unfold pagesFrom at hp
    by_cases hempty : page = []
    · simp [hempty] at hp
    · rw [if_pos hempty, List.mem_singleton] at hp
      rwa [hp]
  | cons record records ih =>
    have hrecord := hrecords record (by simp)
    have hrest : ∀ r ∈ records, r.data.length ≤ maxRecordBytes :=
      fun r hr => hrecords r (by simp [hr])
    have hsize : frameSize (page ++ [record])
        = frameSize page + (record.data.length + recordOverhead) := by
      simp [frameSize, Nat.add_assoc]
    have hsingle : Fits [record] := by
      refine ⟨by simpa using hrecord, ?_⟩
      simp only [frameSize, List.map_cons, List.map_nil, List.sum_cons, List.sum_nil]
      unfold frameOverhead headerBytes recordOverhead maxFrameBytes
      unfold maxRecordBytes at hrecord
      omega
    intro p hp
    unfold pagesFrom at hp
    by_cases hfull : page ≠ [] ∧ target < length + (record.data.length + recordOverhead)
    · rw [if_pos hfull] at hp
      rcases List.mem_cons.mp hp with rfl | hp
      · exact hpage
      · exact ih (by simp [frameSize]) hsingle hrest p hp
    · rw [if_neg hfull] at hp
      refine ih (by rw [hsize, hlength]) ?_ hrest p hp
      by_cases hempty : page = []
      · rw [hempty]
        exact hsingle
      · have hsmall : length + (record.data.length + recordOverhead) ≤ target := by
          by_contra hlt
          exact hfull ⟨hempty, by omega⟩
        refine ⟨?_, ?_⟩
        · intro r hr
          rcases List.mem_append.mp hr with hr | hr
          · exact hpage.1 r hr
          · rwa [List.mem_singleton.mp hr]
        · rw [hsize, ← hlength]
          unfold frameTargetBytes at htarget
          unfold maxFrameBytes
          omega

omit [Checksum] in
lemma injected_headD_subset (ios : List AppendIo) :
    injected (ios.headD {}) ⊆ ios.flatMap injected := by
  cases ios with
  | nil => simp [injected]
  | cons io ios => simp

omit [Checksum] in
lemma flatMap_tail_subset (ios : List AppendIo) :
    ios.tail.flatMap injected ⊆ ios.flatMap injected := by
  cases ios with
  | nil => simp
  | cons io ios => simp

/-- What a call that appends in pages leaves behind: some first pages of the call, all of them if
it succeeded. -/
structure AppendedPages (w w' : Writer) (shapes : List Shape) (pages : List (List Record))
    (r : Except IoError Unit) : Prop where
  outcome : ∃ shapes' done, Good w' shapes'
    ∧ Extends w.directory w'.directory shapes shapes' (List.flatten done) ∧ done <+: pages
    ∧ (r = .ok () → done = pages)
  maxSegmentBytes : w'.store.maxSegmentBytes = w.store.maxSegmentBytes

/-- One page. -/
lemma Appended.pages {w w' : Writer} {shapes : List Shape} {page : List Record}
    {r : Except IoError Unit} (h : Appended w w' shapes page r) :
    AppendedPages w w' shapes [page] r := by
  obtain ⟨shapes', added, hgood, hextends, hadded, hok⟩ := h.outcome
  refine ⟨?_, h.maxSegmentBytes⟩
  cases r with
  | ok u =>
    refine ⟨shapes', [page], hgood, ?_, List.prefix_rfl, fun _ => rfl⟩
    rw [hok rfl] at hextends
    simpa using hextends
  | error e =>
    rcases hadded with rfl | rfl
    · exact ⟨shapes', [], hgood, hextends, List.nil_prefix, fun hr => (by cases hr)⟩
    · exact ⟨shapes', [added], hgood, by simpa using hextends, List.prefix_rfl, fun _ => rfl⟩

/-- A failed first page, before pages that were not tried. -/
lemma AppendedPages.stopped {w w' : Writer} {shapes : List Shape} {xs : List (List Record)}
    {e : IoError} (h : AppendedPages w w' shapes xs (.error e)) (ys : List (List Record)) :
    AppendedPages w w' shapes (xs ++ ys) (.error e) := by
  obtain ⟨shapes', done, hgood, hextends, hle, -⟩ := h.outcome
  exact ⟨⟨shapes', done, hgood, hextends, hle.trans (List.prefix_append xs ys),
    fun hr => (by cases hr)⟩, h.maxSegmentBytes⟩

/-- The loop of `append_records` writes its pages in order until one fails. -/
lemma appendLoop_good {records : List Record} {page : Page} {length : ℕ} {ios : List AppendIo}
    {w w' : Writer} {r : Except IoError Unit} {shapes : List Shape} (hw : Good w shapes)
    (h : (appendLoop records page length ios).exec w = (r, w')) :
    AppendedPages w w' shapes (pagesFrom (min frameTargetBytes w.store.maxSegmentBytes) records
        page.records length) r
      ∧ ∀ error, r = .error error →
        (∀ p ∈ pagesFrom (min frameTargetBytes w.store.maxSegmentBytes) records page.records length,
          Fits p) → Explained (ios.flatMap injected) w'.directory error := by
  induction records generalizing page length ios w shapes with
  | nil =>
    unfold appendLoop at h
    unfold pagesFrom
    by_cases hpage : page.records ≠ []
    · rw [if_pos hpage] at h ⊢
      obtain ⟨happended, herror⟩ := appendPage_good hw h
      refine ⟨happended.pages, fun error heq hfits => ?_⟩
      exact (herror error heq (hfits _ (by simp))).mono (injected_headD_subset ios)
    · rw [if_neg hpage] at h ⊢
      cases h
      exact ⟨⟨⟨shapes, [], hw, .of_segments rfl shapes, List.prefix_rfl, fun _ => rfl⟩, rfl⟩,
        fun _ heq => (by cases heq)⟩
  | cons record records ih =>
    unfold appendLoop at h
    unfold pagesFrom
    rw [exec_bind_of_ok (exec_get w)] at h
    by_cases hfull : page.records ≠ [] ∧ min frameTargetBytes w.store.maxSegmentBytes
        < length + (record.data.length + recordOverhead)
    · rw [if_pos hfull] at h ⊢
      rw [exec_bind] at h
      cases hpage : (appendPage page (ios.headD {})).exec w with
      | mk r₁ w₁ =>
        obtain ⟨happended, herror⟩ := appendPage_good hw hpage
        rw [hpage] at h
        cases r₁ with
        | error e =>
          cases h
          refine ⟨happended.pages.stopped _, fun error heq hfits => ?_⟩
          exact (herror error heq (hfits _ (by simp))).mono (injected_headD_subset ios)
        | ok u =>
          simp only at h
          rw [exec_bind_of_ok (exec_get w₁)] at h
          obtain ⟨shapes₁, added, hgood₁, hextends₁, -, hok⟩ := happended.outcome
          rw [hok rfl] at hextends₁
          obtain ⟨⟨⟨shapes', done, hgood', hextends', hle, hall⟩, hmax⟩, herror'⟩ := ih hgood₁ h
          rw [happended.maxSegmentBytes] at hle hall hmax herror'
          refine ⟨⟨⟨shapes', page.records :: done, hgood', ?_, ?_, ?_⟩, hmax⟩, ?_⟩
          · rw [List.flatten_cons]
            exact hextends₁.trans hextends'
          · exact List.cons_prefix_cons.mpr ⟨rfl, hle⟩
          · intro hr
            rw [hall hr]
            rfl
          · intro error heq hfits
            have hfits' := herror' error heq fun p hp => hfits p (List.mem_cons_of_mem _ hp)
            exact hfits'.mono (flatMap_tail_subset ios)
    · rw [if_neg hfull] at h ⊢
      exact ih hw h

/-- `append_records` writes its pages in order until one fails; if its records are acceptable, only
the file system or an exhausted sequence makes it fail. -/
lemma appendRecords_good {records : List Record} {ios : List AppendIo} {w w' : Writer}
    {r : Except IoError Unit} {shapes : List Shape} (hw : Good w shapes)
    (h : (appendRecords records ios).exec w = (r, w')) :
    AppendedPages w w' shapes (pagesOf w.store.maxSegmentBytes records) r
      ∧ ∀ error, r = .error error → (∀ record ∈ records, record.data.length ≤ maxRecordBytes) →
        Explained (ios.flatMap injected) w'.directory error := by
  unfold appendRecords at h
  rw [exec_bind_of_ok (exec_get w)] at h
  obtain ⟨happended, herror⟩ := appendLoop_good hw h
  refine ⟨happended, fun error heq hrecords => herror error heq ?_⟩
  exact fits_of_mem_pagesFrom (Nat.min_le_left _ _) rfl
    ⟨by simp [Page.new], show frameSize [] ≤ maxFrameBytes by decide⟩ hrecords

/-! ## Opening -/

lemma take_four_frameBytes (sequence : UInt32) (records : List Record) (rest : Bytes) :
    (frameBytes sequence records ++ rest).take 4 = magic := rfl

/-- A segment of a valid shape does not look like a legacy one. -/
lemma take_four_shape {s : Shape} (hs : s.Valid) : s.bytes.take 4 ≠ pageMagic := by
  obtain ⟨frames, torn⟩ := s
  cases frames with
  | nil =>
    obtain ⟨sequence, records, -, ⟨rest, hrest⟩, -⟩ := hs.torn
    intro hlegacy
    have hcut : torn.take 4 <+: magic := by
      rw [← take_four_frameBytes sequence records [], List.append_nil, ← hrest]
      rw [List.take_append]
      exact List.prefix_append _ _
    rw [show torn.take 4 = pageMagic from hlegacy] at hcut
    revert hcut
    decide
  | cons f frames =>
    have hbytes : Shape.bytes ⟨f :: frames, torn⟩
        = frameBytes f.1 f.2 ++ Shape.bytes ⟨frames, torn⟩ := by
      simp [Shape.bytes]
    rw [hbytes, take_four_frameBytes]
    decide

/-- No segment is a legacy one. -/
lemma requireCurrentFormat_range' {d : Directory} {shapes : List Shape} (h : Holds d shapes) (a : ℕ)
    {rest : List Shape} (hrest : shapes.drop a = rest) :
    requireCurrentFormat d (List.range' a rest.length) = .ok () := by
  induction rest generalizing a with
  | nil => rfl
  | cons s rest ih =>
    have hs : shapes[a]? = some s := by
      rw [← List.head?_drop, hrest]
      rfl
    have hnext := ih (a + 1) (by rw [← List.drop_drop, hrest]; rfl)
    rw [List.length_cons, List.range'_succ, requireCurrentFormat, h.read hs]
    simp only [bind, Except.bind]
    rw [if_neg (take_four_shape (h.valid s (List.mem_of_getElem? hs))), hnext]

/-- The errors the file system injects while a store is opened. -/
def openInjected (io : OpenIo) : List IoError :=
  io.createDir.toList ++ io.lockFile.toList ++ io.readFormat.toList ++ io.readMarker.toList
    ++ io.readDir.toList ++ io.recoverRead.toList ++ io.recoverRotate.toList ++ io.rotate.toList

/-- The checks of an open pass, and find the last segment. -/
lemma inspect_eq {d : Directory} {shapes : List Shape} (h : Holds d shapes) (maxSegmentBytes : ℕ)
    (io : OpenIo) :
    (∃ e ∈ openInjected io, inspect d maxSegmentBytes io = .error e)
      ∨ ∃ layout, inspect d maxSegmentBytes io
          = .ok ⟨shapes.length - 1, maxSegmentBytes, 0, true, layout⟩ := by
  have hlast : (List.range shapes.length).getLastD 0 = shapes.length - 1 := by
    rw [List.getLastD_eq_getLast?, List.getLast?_range]
    by_cases hzero : shapes.length = 0 <;> simp [hzero]
  rw [List.getLastD_eq_getLast?] at hlast
  obtain ⟨layout, hlayout⟩ : ∃ layout, packingMarkerMissing d = .ok layout := by
    unfold packingMarkerMissing
    rcases h.marker with hmarker | hmarker
    · exact ⟨true, by rw [hmarker]⟩
    · exact ⟨false, by rw [hmarker]; simp⟩
  have hformat : requireCurrentFormat d (List.range shapes.length) = .ok () := by
    rw [List.range_eq_range']
    exact requireCurrentFormat_range' h 0 List.drop_zero
  unfold inspect
  cases hread : io.readFormat with
  | some e => exact .inl ⟨e, by simp [openInjected, hread], rfl⟩
  | none =>
    cases hmark : io.readMarker with
    | some e =>
      refine .inl ⟨e, by simp [openInjected, hmark], ?_⟩
      simp [unlessFault, h.segmentSequences, hformat, bind, Except.bind]
    | none =>
      cases hdir : io.readDir with
      | some e =>
        refine .inl ⟨e, by simp [openInjected, hdir], ?_⟩
        simp [unlessFault, h.segmentSequences, hformat, hlayout, bind, Except.bind]
      | none =>
        refine .inr ⟨layout, ?_⟩
        simp [unlessFault, h.segmentSequences, hformat, hlayout, hlast, bind, Except.bind, pure,
          Except.pure]

/-- Settling a fresh store keeps the invariant. -/
lemma settle_good {io : OpenIo} {w w' : Writer} {r : Except IoError Unit} {shapes : List Shape}
    (hw : Good w shapes) (h : (settle io).exec w = (r, w')) :
    Good w' shapes ∧ w'.directory = w.directory
      ∧ w'.store.maxSegmentBytes = w.store.maxSegmentBytes
      ∧ ∀ error, r = .error error → Explained (openInjected io) w'.directory error := by
  unfold settle at h
  rw [exec_bind] at h
  cases hrecover : (recoverFrontier io.recoverRead io.recoverRotate).exec w with
  | mk r₁ w₁ =>
    obtain ⟨hgood, hkept, -, herror⟩ := recoverFrontier_good hw hrecover
    rw [hrecover] at h
    cases r₁ with
    | error e =>
      cases h
      refine ⟨hgood, hkept.directory, hkept.maxSegmentBytes, fun error heq =>
        (herror error heq).mono ?_⟩
      intro e' he'
      rcases List.mem_append.mp he' with he' | he' <;> simp [openInjected, he']
    | ok u =>
      simp only at h
      rw [exec_bind_of_ok (exec_get w₁)] at h
      by_cases hlayout : w₁.store.initializeLayout = true
      · rw [if_pos hlayout] at h
        obtain ⟨hgood', hkept', -, -, herror'⟩ := rotate_good hgood h
        refine ⟨hgood', hkept'.directory.trans hkept.directory,
          hkept'.maxSegmentBytes.trans hkept.maxSegmentBytes, fun error heq =>
          (herror' error heq).mono ?_⟩
        intro e' he'
        simp [openInjected, he']
      · rw [if_neg hlayout] at h
        cases h
        exact ⟨hgood, hkept.directory, hkept.maxSegmentBytes, fun _ heq => (by cases heq)⟩

/-- A fresh store over a directory of shapes. -/
lemma fresh_good {d : Directory} {shapes : List Shape} (h : Holds d shapes) (maxSegmentBytes : ℕ)
    (layout : Bool) :
    Good ⟨{ d with lock := .held }, ⟨shapes.length - 1, maxSegmentBytes, 0, true, layout⟩⟩
      shapes := by
  have hbounded := h.bounded
  have hlimit : 0 < sequenceLimit := by decide
  refine ⟨⟨h.segments, h.valid, h.bounded, h.marker, h.named, h.settled⟩, ?_, ?_, rfl,
    fun hn => (by cases hn)⟩
  · show shapes.length = shapes.length - 1 ∨ shapes.length = shapes.length - 1 + 1
    omega
  · show shapes.length - 1 < sequenceLimit
    omega

/-- Opening keeps every segment; it yields a sound store, or fails for a reason of its caller, the
file system or an exhausted sequence. -/
lemma openInner_good {d d' : Directory} {shapes : List Shape} {maxSegmentBytes : ℕ} {io : OpenIo}
    {r : Except IoError SegmentStore} (h : Holds d shapes) (hlock : d.lock ≠ .held)
    (hopen : openInner false maxSegmentBytes io d = (r, d')) :
    (∃ store, r = .ok store ∧ Good ⟨d', store⟩ shapes ∧ d'.segments = d.segments)
      ∨ ∃ e, r = .error e ∧ Holds d' shapes ∧ d'.lock ≠ .held ∧ d'.segments = d.segments
        ∧ (0 < maxSegmentBytes → Explained (openInjected io) d e) := by
  unfold openInner at hopen
  rw [if_neg (by simp [h.settled])] at hopen
  by_cases hzero : maxSegmentBytes = 0
  · rw [if_pos hzero] at hopen
    cases hopen
    exact .inr ⟨_, rfl, h, hlock, rfl, fun hpos => absurd hzero (by omega)⟩
  · rw [if_neg hzero] at hopen
    cases hcreate : io.createDir with
    | some e =>
      rw [hcreate] at hopen
      cases hopen
      exact .inr ⟨_, rfl, h, hlock, rfl, fun _ => .inl (by simp [openInjected, hcreate])⟩
    | none =>
      cases hfile : io.lockFile with
      | some e =>
        rw [hcreate, hfile] at hopen
        cases hopen
        exact .inr ⟨_, rfl, h, hlock, rfl, fun _ => .inl (by simp [openInjected, hfile])⟩
      | none =>
        rw [hcreate, hfile] at hopen
        simp only at hopen
        rw [if_neg hlock] at hopen
        have hfree : Holds { d with lock := .free } shapes :=
          ⟨h.segments, h.valid, h.bounded, h.marker, h.named, h.settled⟩
        rcases inspect_eq h maxSegmentBytes io with ⟨e, he, hinspect⟩ | ⟨layout, hinspect⟩
        · rw [hinspect] at hopen
          cases hopen
          exact .inr ⟨e, rfl, hfree, by simp, rfl, fun _ => .inl he⟩
        · rw [hinspect] at hopen
          simp only at hopen
          cases hsettle : (settle io).exec ⟨{ d with lock := .held },
              ⟨shapes.length - 1, maxSegmentBytes, 0, true, layout⟩⟩ with
          | mk r₁ w₁ =>
            obtain ⟨hgood, hdir, -, herror⟩ :=
              settle_good (fresh_good h maxSegmentBytes layout) hsettle
            rw [hsettle] at hopen
            have hsegments : w₁.directory.segments = d.segments := by rw [hdir]
            cases r₁ with
            | error e =>
              cases hopen
              have hw := hgood.holds
              refine .inr ⟨e, rfl, ⟨hw.segments, hw.valid, hw.bounded, hw.marker, hw.named,
                hw.settled⟩, by simp, hsegments, fun _ => ?_⟩
              have hexplained := herror e rfl
              unfold Explained Exhausted at hexplained ⊢
              rwa [hsegments] at hexplained
            | ok u =>
              cases hopen
              exact .inl ⟨_, rfl, hgood, hsegments⟩

/-- A held lock keeps a second store out. -/
lemma openInner_of_held {d : Directory} (hlock : d.lock = .held) (maxSegmentBytes : ℕ)
    (io : OpenIo) : ∃ e, openInner false maxSegmentBytes io d = (.error e, d) := by
  unfold openInner
  split
  · exact ⟨_, rfl⟩
  · split
    · exact ⟨_, rfl⟩
    · split
      · exact ⟨_, rfl⟩
      · exact ⟨_, rfl⟩
      · exact ⟨_, rfl⟩

/-! ## Opening writes no segment -/

omit [Checksum] in
lemma wp_rotate_directory {w : Writer} (fault : Option IoError) :
    wp (rotate fault) (fun _ w' => w'.directory = w.directory)
      (fun _ w' => w'.directory = w.directory) w := by
  have hall : ∀ outcome w', (rotate fault).exec w = (outcome, w') → w'.directory = w.directory := by
    intro outcome w' hrun
    rcases rotate_cases hrun with ⟨e, -, -, rfl⟩ | ⟨-, -, rfl⟩ | ⟨-, -, -, rfl⟩ | ⟨-, -, -, rfl⟩
    all_goals rfl
  apply wp_of_exec
  · exact fun _ w' hrun => hall _ w' hrun
  · exact fun _ w' hrun => hall _ w' hrun

lemma wp_settle_directory {w : Writer} (io : OpenIo) :
    wp (settle io) (fun _ w' => w'.directory = w.directory)
      (fun _ w' => w'.directory = w.directory) w := by
  have hrotate : ∀ (w' : Writer) (fault : Option IoError), w'.directory = w.directory →
      wp (rotate fault) (fun _ w'' => w''.directory = w.directory)
        (fun _ w'' => w''.directory = w.directory) w' := by
    intro w' fault hsame
    rw [← hsame]
    exact wp_rotate_directory fault
  have hrecover : wp (recoverFrontier io.recoverRead io.recoverRotate)
      (fun _ w' => w'.directory = w.directory) (fun _ w' => w'.directory = w.directory) w := by
    unfold recoverFrontier check
    cases io.recoverRead with
    | some error => exact rfl
    | none =>
      rw [wp_bind, wp_pure, wp_bind, wp_get]
      cases w.directory.segments[w.store.nextSeq]? with
      | none => exact rfl
      | some file =>
        simp only [update, wp_bind, wp_modify, wp_lift]
        refine ⟨fun incomplete _ => ?_, fun _ _ => trivial⟩
        by_cases hleave : incomplete ∨ w.store.maxSegmentBytes ≤ file.bytes.length
        · rw [if_pos hleave, wp_bind]
          have hread := hrotate ⟨w.directory, { w.store with length := file.bytes.length }⟩
            io.recoverRotate rfl
          apply wp_mono hread
          · exact fun _ _ h => h
          · exact fun _ _ h => h
        · rw [if_neg hleave]
          exact rfl
  unfold settle
  rw [wp_bind]
  apply wp_mono hrecover
  · intro _ w₁ hsame
    rw [wp_bind, wp_get, wp_ite]
    exact ⟨fun _ => hrotate w₁ io.rotate hsame, fun _ => hsame⟩
  · exact fun _ _ h => h

/-- Whatever a directory holds, opening it leaves its segments. -/
lemma openInner_segments (migration : Bool) (maxSegmentBytes : ℕ) (io : OpenIo) (d : Directory) :
    (openInner migration maxSegmentBytes io d).2.segments = d.segments := by
  unfold openInner
  split
  · rfl
  · split
    · rfl
    · split
      · rfl
      · rfl
      · split
        · rfl
        · split
          · rfl
          · next store hinspect =>
            have hsettle := wp_settle_directory (w := ⟨{ d with lock := .held }, store⟩) io
            split
            · next error w hrun =>
              have hsame := wp_eq_error hsettle hrun
              show w.directory.segments = _
              rw [hsame]
            · next w hrun =>
              have hsame := wp_eq_ok hsettle hrun
              show w.directory.segments = _
              rw [hsame]

/-! ## Where an append writes -/

section

variable {w : Writer} {n : ℕ}

omit [Checksum] in
/-- The current segment never moves back. -/
lemma wp_rotate_le (fault : Option IoError) (h : n ≤ w.store.nextSeq) :
    wp (rotate fault) (fun _ w' => n ≤ w'.store.nextSeq) (fun _ _ => True) w := by
  apply wp_of_exec
  · intro _ w' hrun
    rcases rotate_cases hrun with ⟨e, -, hok, -⟩ | ⟨-, -, rfl⟩ | ⟨-, -, -, rfl⟩ | ⟨-, -, hok, -⟩
    · cases hok
    · exact h
    · exact h.trans (Nat.le_succ _)
    · cases hok
  · intros
    trivial

omit [Checksum] in
lemma wp_check {fault : Option IoError} {P : Writer → Prop} (h : P w) :
    wp (check fault) (fun _ w' => P w') (fun _ _ => True) w := by
  unfold check
  cases fault with
  | some error => trivial
  | none => exact h

lemma wp_recoverFrontier_le (readFault rotateFault : Option IoError) (h : n ≤ w.store.nextSeq) :
    wp (recoverFrontier readFault rotateFault) (fun _ w' => n ≤ w'.store.nextSeq)
      (fun _ _ => True) w := by
  unfold recoverFrontier
  rw [wp_bind]
  apply wp_mono (wp_check (P := fun w' => n ≤ w'.store.nextSeq) h) _ (fun _ _ _ => trivial)
  intro _ w₁ h₁
  rw [wp_bind, wp_get]
  cases w₁.directory.segments[w₁.store.nextSeq]? with
  | none => exact h₁
  | some file =>
    simp only [update, wp_bind, wp_modify, wp_lift]
    refine ⟨fun incomplete _ => ?_, fun _ _ => trivial⟩
    by_cases hleave : incomplete ∨ w₁.store.maxSegmentBytes ≤ file.bytes.length
    · rw [if_pos hleave, wp_bind]
      apply wp_mono (wp_rotate_le rotateFault (by exact h₁)) _ (fun _ _ _ => trivial)
      intro _ w₂ h₂
      exact h₂
    · rw [if_neg hleave]
      exact h₁

lemma wp_prepare_le (io : AppendIo) (length : ℕ) (h : n ≤ w.store.nextSeq) :
    wp (prepare io length) (fun _ w' => n ≤ w'.store.nextSeq) (fun _ _ => True) w := by
  have hrotate : ∀ w₁ : Writer, n ≤ w₁.store.nextSeq →
      wp (do
        let w ← get
        if 0 < w.store.length ∧ w.store.maxSegmentBytes < w.store.length + length then
          rotate io.rotate) (fun _ w' => n ≤ w'.store.nextSeq) (fun _ _ => True) w₁ := by
    intro w₁ h₁
    rw [wp_bind, wp_get, wp_ite]
    exact ⟨fun _ => wp_rotate_le io.rotate h₁, fun _ => h₁⟩
  unfold prepare
  rw [wp_bind, wp_get]
  by_cases hneeds : w.store.needsRecovery = true
  · rw [if_pos hneeds, wp_bind]
    apply wp_mono (wp_recoverFrontier_le _ _ h) _ (fun _ _ _ => trivial)
    intro _ w₁ h₁
    exact hrotate w₁ h₁
  · rw [if_neg hneeds]
    exact hrotate w h

omit [Checksum] in
/-- A frame that was written is in the current segment. -/
lemma wp_writeFrame_some (io : AppendIo) (encoded : Bytes) (h : n ≤ w.store.nextSeq) :
    wp (writeFrame io encoded)
      (fun _ w' => n ≤ w'.store.nextSeq ∧ w'.directory.segments[w'.store.nextSeq]? ≠ none)
      (fun _ _ => True) w := by
  let P : Writer → Prop := fun w' =>
    n ≤ w'.store.nextSeq ∧ w'.directory.segments[w'.store.nextSeq]? ≠ none
  unfold writeFrame
  simp only [update, wp_bind, wp_modify]
  apply wp_mono (wp_check (P := fun w' => n ≤ w'.store.nextSeq) (by exact h)) _ (fun _ _ _ => trivial)
  intro _ w₁ h₁
  have hpersist : wp (persist io encoded) (fun _ w' => P w') (fun _ _ => True) w₁ := by
    unfold persist writeBytes
    cases io.persist with
    | some fault =>
      simp only [wp_bind, wp_modify, wp_throw]
    | none =>
      rw [wp_modify]
      refine ⟨h₁, ?_⟩
      show (w₁.directory.segments.insert w₁.store.nextSeq _)[w₁.store.nextSeq]? ≠ none
      simp
  apply wp_mono hpersist _ (fun _ _ _ => trivial)
  intro _ w₂ h₂
  have hlast : ∀ w₃ : Writer, P w₃ → wp (do
      check io.metadata
      let w ← get
      update fun s =>
        { s with length := (currentFile w io).bytes.length, needsRecovery := false })
      (fun _ w' => P w') (fun _ _ => True) w₃ := by
    intro w₃ h₃
    rw [wp_bind]
    apply wp_mono (wp_check (P := P) h₃) _ (fun _ _ _ => trivial)
    intro _ w₄ h₄
    simpa only [update, wp_bind, wp_get, wp_modify] using h₄
  rw [wp_get]
  by_cases hlayout : w₂.store.initializeLayout = true
  · rw [if_pos hlayout, wp_bind]
    have hpublish : wp (publishLayout io) (fun _ w' => P w') (fun _ _ => True) w₂ := by
      unfold publishLayout
      cases io.marker with
      | some fault =>
        obtain ⟨published, error⟩ := fault
        cases published <;> simp [wp_bind]
      | none => simpa only [update, wp_bind, wp_modify] using h₂
    apply wp_mono hpublish _ (fun _ _ _ => trivial)
    intro _ w₃ h₃
    exact hlast w₃ h₃
  · rw [if_neg hlayout]
    exact hlast w₂ h₂

lemma wp_appendPage_some (page : Page) (io : AppendIo) (h : n ≤ w.store.nextSeq) :
    wp (appendPage page io)
      (fun _ w' => n ≤ w'.store.nextSeq ∧ w'.directory.segments[w'.store.nextSeq]? ≠ none)
      (fun _ _ => True) w := by
  unfold appendPage
  rw [wp_bind, wp_lift]
  refine ⟨fun encoded _ => ?_, fun _ _ => trivial⟩
  rw [wp_bind]
  apply wp_mono (wp_prepare_le io encoded.length h) _ (fun _ _ _ => trivial)
  intro _ w₁ h₁
  exact wp_writeFrame_some io encoded h₁

end

end SegmentStore

/-! ## Runs -/

open SegmentStore

/-- The invariant of a chain between calls. -/
def Chain.Sound (c : Chain) (shapes : List Shape) : Prop :=
  match c.store with
  | none => Holds c.directory shapes ∧ c.directory.lock ≠ .held
  | some store => Good ⟨c.directory, store⟩ shapes

lemma Chain.Sound.holds {c : Chain} {shapes : List Shape} (h : c.Sound shapes) :
    Holds c.directory shapes := by
  unfold Chain.Sound at h
  cases hstore : c.store with
  | none =>
    rw [hstore] at h
    exact h.1
  | some store =>
    rw [hstore] at h
    exact h.holds

lemma Chain.Sound.good {c : Chain} {shapes : List Shape} (h : c.Sound shapes)
    {store : SegmentStore} (hstore : c.store = some store) : Good ⟨c.directory, store⟩ shapes := by
  unfold Chain.Sound at h
  rwa [hstore] at h

/-- The records that a call adds to the chain: its own if it succeeds, else those of some of its
first frames. -/
def Contributes (e : Event) (added : List Record) : Prop :=
  match e.call with
  | .appendPage page _ =>
    (added = [] ∨ added = page.records) ∧ (e.outcome = .ok () → added = page.records)
  | .appendRecords records _ =>
    (∃ store done, e.before.store = some store ∧ done <+: pagesOf store.maxSegmentBytes records
      ∧ added = done.flatten) ∧ (e.outcome = .ok () → added = records)
  | .rotate _ | .close | .reopen _ _ => added = []

omit [Checksum] in
/-- What a method of the store does to a chain. -/
lemma Chain.method_eq_some {m : Fallible IoError Writer Unit} {c c' : Chain}
    {outcome : Except IoError Unit} (h : c.method m = some (outcome, c')) :
    ∃ store w', c.store = some store ∧ m.exec ⟨c.directory, store⟩ = (outcome, w')
      ∧ c' = ⟨w'.directory, some w'.store⟩ := by
  unfold Chain.method at h
  obtain ⟨store, hstore, heq⟩ := Option.map_eq_some_iff.mp h
  obtain ⟨rfl, rfl⟩ := Prod.mk.inj heq
  exact ⟨store, _, hstore, rfl, rfl⟩

/-- Every call keeps a chain sound and adds what it contributes. -/
lemma Call.exec_sound {call : Call} {c c' : Chain} {outcome : Except IoError Unit}
    {shapes : List Shape} (hc : c.Sound shapes) (h : call.exec c = some (outcome, c')) :
    ∃ shapes' added, c'.Sound shapes'
      ∧ Extends c.directory c'.directory shapes shapes' added
      ∧ Contributes ⟨c, call, outcome⟩ added := by
  unfold Call.exec at h
  cases call with
  | appendPage page io =>
    obtain ⟨store, w', hstore, hexec, rfl⟩ := Chain.method_eq_some h
    obtain ⟨shapes', added, hgood, hextends, hadded, hok⟩ :=
      (appendPage_good (hc.good hstore) hexec).1.outcome
    exact ⟨shapes', added, hgood, hextends, hadded, hok⟩
  | appendRecords records ios =>
    obtain ⟨store, w', hstore, hexec, rfl⟩ := Chain.method_eq_some h
    obtain ⟨shapes', done, hgood, hextends, hle, hok⟩ :=
      (appendRecords_good (hc.good hstore) hexec).1.outcome
    refine ⟨shapes', done.flatten, hgood, hextends, ⟨store, done, hstore, hle, rfl⟩, fun hr => ?_⟩
    rw [hok hr, pagesOf, flatten_pagesFrom]
    rfl
  | rotate fault =>
    obtain ⟨store, w', hstore, hexec, rfl⟩ := Chain.method_eq_some h
    obtain ⟨hgood, hkept, -⟩ := rotate_good (hc.good hstore) hexec
    exact ⟨shapes, [], hgood, .of_segments (by rw [hkept.directory]) shapes, rfl⟩
  | close =>
    obtain ⟨store, hstore, heq⟩ := Option.map_eq_some_iff.mp h
    obtain ⟨rfl, rfl⟩ := Prod.mk.inj heq
    have hholds := (hc.good hstore).holds
    have hsegments : (SegmentStore.close ⟨c.directory, store⟩).segments = c.directory.segments := rfl
    refine ⟨shapes, [], ⟨⟨hholds.segments, hholds.valid, hholds.bounded, hholds.marker,
      hholds.named, hholds.settled⟩, ?_⟩, .of_segments hsegments shapes, rfl⟩
    exact fun hheld => (by cases hheld)
  | reopen maxSegmentBytes io =>
    simp only at h
    cases hstore : c.store with
    | none =>
      -- a closed chain is not locked, so opening may succeed
      unfold Chain.Sound at hc
      rw [hstore] at hc
      cases hopen : openInner false maxSegmentBytes io c.directory with
      | mk r d' =>
        rw [hopen] at h
        rcases openInner_good hc.1 hc.2 hopen with ⟨store, rfl, hgood, hsegments⟩ |
          ⟨e, rfl, hholds, hlock, hsegments, -⟩
        · cases h
          exact ⟨shapes, [], hgood, .of_segments hsegments shapes, rfl⟩
        · cases h
          refine ⟨shapes, [], ?_, .of_segments hsegments shapes, rfl⟩
          unfold Chain.Sound
          rw [hstore]
          exact ⟨hholds, hlock⟩
    | some store =>
      obtain ⟨e, hopen⟩ := openInner_of_held (hc.good hstore).locked maxSegmentBytes io
      rw [hopen] at h
      cases h
      exact ⟨shapes, [], hc, .of_segments rfl shapes, rfl⟩

/-- A run keeps a chain sound, and adds what its calls contribute, in order. -/
lemma Chain.run_sound {calls : List Call} {c c' : Chain} {events : List Event}
    {shapes : List Shape} (hc : c.Sound shapes) (h : Chain.run calls c = some (events, c')) :
    ∃ shapes' parts, c'.Sound shapes'
      ∧ Extends c.directory c'.directory shapes shapes' (List.flatten parts)
      ∧ List.Forall₂ Contributes events parts
      ∧ ∀ e ∈ events, e.before.directory.Grows c'.directory := by
  induction calls generalizing c shapes events with
  | nil =>
    cases h
    exact ⟨shapes, [], hc, .of_segments rfl shapes, .nil, by simp⟩
  | cons call calls ih =>
    simp only [Chain.run, Option.bind_eq_bind, Option.bind_eq_some_iff, Option.pure_def,
      Option.some.injEq, Prod.exists, Prod.mk.injEq] at h
    obtain ⟨outcome, next, hcall, rest, last, hrest, rfl, rfl⟩ := h
    obtain ⟨shapes₁, added, hsound, hextends, hadded⟩ := Call.exec_sound hc hcall
    obtain ⟨shapes', parts, hsound', hextends', hparts, hbefore⟩ := ih hsound hrest
    refine ⟨shapes', added :: parts, hsound', hextends.trans hextends', .cons hadded hparts, ?_⟩
    intro e he
    rcases List.mem_cons.mp he with rfl | he
    · exact (hextends.trans hextends').grows
    · exact hbefore e he

lemma Chain.empty_sound : Chain.empty.Sound [] := by
  refine ⟨⟨fun n => ?_, by simp, by simp, .inl rfl, rfl, rfl⟩, fun hheld => (by cases hheld)⟩
  simp [Chain.empty, Directory.empty]

/-- The segment store survives torn writes: whatever fails in a run of calls, written bytes stay,
the records visited afterwards are those the calls contributed, in order, every segment scans
without an error other than an incomplete tail, the segment numbers have no gap, and the store
recovers and accepts further records unless the file system fails or the numbers are exhausted. -/
theorem Chain.survives_torn_writes {calls : List Call} {events : List Event} {c : Chain}
    (h : Chain.run calls Chain.empty = some (events, c)) :
    (∀ e ∈ events, ∀ (n : ℕ) (file : SegmentFile), e.before.directory.segments[n]? = some file →
        ∃ file', c.directory.segments[n]? = some file' ∧ file.bytes <+: file'.bytes)
      ∧ (∃ parts stats, List.Forall₂ Contributes events parts
        ∧ visitRecords c.directory = .ok (parts.flatten, stats))
      ∧ (∀ (n : ℕ) (file : SegmentFile), c.directory.segments[n]? = some file →
        ∀ error, .error error ∈ (PageScanner.new file.bytes).items.1 → error.kind = .incompleteTail)
      ∧ (∃ k, c.directory.segmentSequences = .ok (List.range k))
      ∧ (∀ store, c.store = some store → ¬ Exhausted c.directory →
        ∃ w, (recoverFrontier none none).exec ⟨c.directory, store⟩ = (.ok (), w))
      ∧ (∀ store records ios error w, c.store = some store →
        (∀ record ∈ records, record.data.length ≤ maxRecordBytes) →
        (appendRecords records ios).exec ⟨c.directory, store⟩ = (.error error, w) →
        Explained (ios.flatMap injected) w.directory error)
      ∧ (∀ maxSegmentBytes io error d, c.store = none → 0 < maxSegmentBytes →
        openInner false maxSegmentBytes io c.directory = (.error error, d) →
        Explained (openInjected io) c.directory error) := by
  obtain ⟨shapes, parts, hsound, hextends, hparts, hbefore⟩ := Chain.run_sound Chain.empty_sound h
  have hholds := hsound.holds
  refine ⟨?_, ⟨parts, ⟨tornCount shapes⟩, hparts, ?_⟩, ?_, ⟨_, hholds.segmentSequences⟩, ?_, ?_, ?_⟩
  · intro e he n file hfile
    obtain ⟨file', hfile', hgrown⟩ := (hbefore e he).kept n file hfile
    exact ⟨file', hfile', hgrown.bytes⟩
  · rw [hholds.visitRecords, hextends.records]
    rfl
  · intro n file hfile error herror
    have hbytes := hholds.segments n
    rw [hfile, Option.map_some] at hbytes
    obtain ⟨s, hs, hsbytes⟩ := Option.map_eq_some_iff.mp hbytes.symm
    rw [← hsbytes] at herror
    exact (items_shape (hholds.valid s (List.mem_of_getElem? hs))).2.2 error herror
  · intro store hstore hroom
    cases hrecover : (recoverFrontier none none).exec ⟨c.directory, store⟩ with
    | mk r w =>
      obtain ⟨-, hkept, -, herror⟩ := recoverFrontier_good (hsound.good hstore) hrecover
      cases r with
      | ok u => exact ⟨w, rfl⟩
      | error e =>
        rcases herror e rfl with hmem | ⟨-, hfull⟩
        · simp at hmem
        · rw [hkept.directory] at hfull
          exact absurd hfull hroom
  · intro store records ios error w hstore hrecords hexec
    exact (appendRecords_good (hsound.good hstore) hexec).2 error rfl hrecords
  · intro maxSegmentBytes io error d hstore hpos hopen
    unfold Chain.Sound at hsound
    rw [hstore] at hsound
    rcases openInner_good hsound.1 hsound.2 hopen with ⟨store, hr, -⟩ | ⟨e, hr, -, -, -, hexplained⟩
    · cases hr
    · cases hr
      exact hexplained hpos

/-- A store whose second append is torn after five bytes, and that then goes on. -/
def tornCalls : List Call :=
  [.reopen 4096 {},
    .appendPage ((Page.new 0).addRecord 1 [0x61]) {},
    .appendPage ((Page.new 0).addRecord 2 [0x62]) { persist := some (5, ⟨.other, "disk full"⟩) },
    .appendRecords [⟨3, [0x63]⟩] []]

omit [Checksum] in
/-- The torn frame is left behind in its segment, and both acknowledged records are visited. -/
theorem Chain.survives_torn_writes_after_torn :
    ∃ events c, @Chain.run crc32cChecksum tornCalls Chain.empty = some (events, c)
      ∧ events.map Event.outcome
        = [.ok (), .ok (), .error ⟨.other, "disk full"⟩, .ok ()]
      ∧ ∃ parts stats, List.Forall₂ Contributes events parts
        ∧ @visitRecords crc32cChecksum c.directory = .ok (parts.flatten, stats) := by
  have hrun : (@Chain.run crc32cChecksum tornCalls Chain.empty).map
      (fun result => result.1.map Event.outcome)
        = some [.ok (), .ok (), .error ⟨.other, "disk full"⟩, .ok ()] := by
    decide +kernel
  obtain ⟨⟨events, c⟩, hsome, houtcomes⟩ := Option.map_eq_some_iff.mp hrun
  exact ⟨events, c, hsome, houtcomes,
    (@Chain.survives_torn_writes crc32cChecksum _ _ _ hsome).2.1⟩

end EditChain.Store
