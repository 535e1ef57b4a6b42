import EditChain.Store.SegmentTheorems
import EditChain.Sync.EvidenceTheorems
import EditChain.Sync.Storage

/-!
# The records of a chain that only grows

Whatever is written to a chain, its decodable records keep their order and their segments, new ones
follow them, and none enters a segment before the last one.
-/

namespace EditChain.Sync

open Core Fallible Store UnitReader
open Std (ExtTreeMap)

variable {Op : Type} [Schema Op] [Blake3]

/-- The decodable records among some bytes of a segment. -/
def decodable (segment : ℕ) (data : List Bytes) : List Occurrence :=
  data.filterMap fun bytes =>
    match Schema.decodeOp bytes with
    | .ok op => some (⟨Schema.id op, Blake3.hash bytes⟩, ⟨bytes, segment⟩)
    | .error _ => none

lemma located_eq (segment : ℕ) (records : List RecordRef) :
    located segment records = decodable segment (records.map RecordRef.data) := by
  unfold located decodable
  rw [List.filterMap_map]
  rfl

/-- The bytes of the decodable ones, wherever they are. -/
def readableBytes (data : List Bytes) : List Bytes :=
  data.filter fun bytes => (Schema.decodeOp bytes).isOk

lemma map_bytes_decodable (segment : ℕ) (data : List Bytes) :
    (decodable segment data).map (fun r => r.2.bytes) = readableBytes data := by
  induction data with
  | nil => rfl
  | cons bytes data ih =>
    unfold decodable readableBytes at ih ⊢
    rw [List.filterMap_cons, List.filter_cons]
    cases hop : Schema.decodeOp bytes with
    | error e => simpa [hop, Except.isOk, Except.toBool] using ih
    | ok op => simpa [hop, Except.isOk, Except.toBool] using ih

lemma mem_decodable {segment : ℕ} {data : List Bytes} {r : Occurrence}
    (h : r ∈ decodable segment data) :
    r.2.segment = segment ∧ r.2.bytes ∈ data
      ∧ ∃ op, Schema.decodeOp r.2.bytes = .ok op ∧ r.1 = ⟨Schema.id op, Blake3.hash r.2.bytes⟩ := by
  obtain ⟨bytes, hmem, hsome⟩ := List.mem_filterMap.mp h
  cases hop : Schema.decodeOp bytes with
  | error e =>
    rw [hop] at hsome
    cases hsome
  | ok op =>
    rw [hop] at hsome
    cases hsome
    exact ⟨rfl, hmem, op, hop, rfl⟩

variable [Checksum]

/-- Records lie in the segments they were found in. -/
lemma segment_lt_of_mem {d : Directory} {k : ℕ} {r : Occurrence} (h : r ∈ occurrences d k) :
    r.2.segment < k := by
  induction k with
  | zero => cases h
  | succ k ih =>
    unfold occurrences at h
    rcases List.mem_append.mp h with h | h
    · have hlt := ih h
      omega
    · rw [located_eq] at h
      have hsegment := (mem_decodable h).1
      omega

/-- New records follow the old ones, none before the last segment. -/
lemma occurrences_grow {d d' : Directory} {k k' : ℕ} (hgrows : d.Grows d') (hd : d.Readable k)
    (hd' : d'.Readable k') :
    ∃ new, occurrences d' k' = occurrences d k ++ new ∧ ∀ r ∈ new, k ≤ r.2.segment + 1 := by
  have hle : k ≤ k' := by
    by_contra hlt
    obtain ⟨file, hfile⟩ := hd.exists_file (show k' < k by omega)
    obtain ⟨file', hfile', -⟩ := hgrows.kept k' file hfile
    have hsome := (hd'.dense k').mp (by rw [hfile']; rfl)
    omega
  -- the segments up to the last old one
  have hold : ∃ new, occurrences d' k = occurrences d k ++ new
      ∧ ∀ r ∈ new, k ≤ r.2.segment + 1 := by
    cases k with
    | zero => exact ⟨[], rfl, by simp⟩
    | succ k =>
      have hlast : d.segments[k]? ≠ none :=
        Option.isSome_iff_ne_none.mp ((hd.dense k).mpr (by omega))
      have hbefore : occurrences d' k = occurrences d k :=
        occurrences_of_grows hgrows fun _ => hlast
      obtain ⟨new, hnew⟩ := located_prefix (hgrows.bytesAt k) k
      refine ⟨new, ?_, ?_⟩
      · unfold occurrences
        rw [hbefore, ← hnew, List.append_assoc]
      · intro r hr
        have hmem : r ∈ located k (unitRecords (pages.run none (d'.bytesAt k)).units) := by
          rw [← hnew]
          exact List.mem_append_right _ hr
        rw [located_eq] at hmem
        rw [(mem_decodable hmem).1]
  -- and those after it
  have hmore : ∀ n, ∃ new, occurrences d' (k + n) = occurrences d k ++ new
      ∧ ∀ r ∈ new, k ≤ r.2.segment + 1 := by
    intro n
    induction n with
    | zero => exact hold
    | succ n ih =>
      obtain ⟨new, hnew, hsegments⟩ := ih
      refine ⟨new ++ located (k + n) (unitRecords (pages.run none (d'.bytesAt (k + n))).units),
        ?_, ?_⟩
      · show occurrences d' (k + n + 1) = _
        rw [occurrences, hnew, List.append_assoc]
      · intro r hr
        rcases List.mem_append.mp hr with hr | hr
        · exact hsegments r hr
        · rw [located_eq] at hr
          rw [(mem_decodable hr).1]
          omega
  obtain ⟨n, rfl⟩ := Nat.exists_eq_add_of_le hle
  exact hmore n

/-! ## Directories of shapes -/

/-- The records of the first segments, by their shapes. -/
lemma occurrences_holds {d : Directory} {shapes : List Shape} (h : Holds d shapes) :
    (occurrences d shapes.length).map (fun r => r.2.bytes)
      = readableBytes ((allRecords shapes).map Record.data) := by
  have hsome : ∀ n (s : Shape), shapes[n]? = some s →
      located n (unitRecords (pages.run none (d.bytesAt n)).units)
        = decodable n (s.records.map Record.data) := by
    intro n s hs
    have hbytes : d.bytesAt n = s.bytes := by
      have hsegment := h.segments n
      rw [hs, Option.map_some] at hsegment
      obtain ⟨file, hfile, hfilebytes⟩ := Option.map_eq_some_iff.mp hsegment
      rw [Directory.bytesAt_of_some hfile, hfilebytes]
    have hvalid := h.valid s (List.mem_of_getElem? hs)
    rw [located_eq, hbytes]
    congr 1
    rw [← (run_shape hvalid none).1]
    show (recordRefs _).map _ = _
    generalize PageScanner.unitItems (pages.run none s.bytes).units = items
    induction items with
    | nil => rfl
    | cons item items ih =>
      cases item with
      | page sequence offset => exact ih
      | record r => exact congrArg (r.data :: ·) ih
  have hall : ∀ n ≤ shapes.length, (occurrences d n).map (fun r => r.2.bytes)
      = readableBytes ((allRecords (shapes.take n)).map Record.data) := by
    intro n hn
    induction n with
    | zero => simp [occurrences, allRecords, readableBytes]
    | succ n ih =>
      obtain ⟨s, hs⟩ : ∃ s, shapes[n]? = some s := ⟨shapes[n], List.getElem?_eq_getElem (by omega)⟩
      unfold occurrences
      rw [List.map_append, ih (by omega), hsome n s hs, map_bytes_decodable, List.take_add_one, hs,
        Option.toList_some, SegmentStore.allRecords_append, List.map_append]
      simp [readableBytes, allRecords]
  have hwhole := hall shapes.length le_rfl
  rwa [List.take_length] at hwhole

omit [Schema Op] [Blake3] in
/-- A directory of shapes is readable. -/
lemma readable_of_holds {d : Directory} {shapes : List Shape} (h : Holds d shapes) :
    d.Readable shapes.length := by
  refine ⟨h.isSome, ?_⟩
  intro n e hbad
  cases hs : shapes[n]? with
  | none =>
    have hnone : d.segments[n]? = none := by
      have hsegment := h.segments n
      rw [hs, Option.map_none] at hsegment
      exact Option.map_eq_none_iff.mp hsegment
    rw [Directory.bytesAt_of_none hnone, run_nil] at hbad
    cases hbad
  | some s =>
    have hsegment := h.segments n
    rw [hs, Option.map_some] at hsegment
    obtain ⟨file, hfile, hfilebytes⟩ := Option.map_eq_some_iff.mp hsegment
    rw [Directory.bytesAt_of_some hfile, hfilebytes,
      (run_shape (h.valid s (List.mem_of_getElem? hs)) none).2] at hbad
    split at hbad <;> cases hbad

/-! ## The history of a chain -/

/-- The decodable records of a chain, in order. -/
def history (d : Directory) : List Occurrence := occurrences d d.segments.size

/-- The keys of the decodable records of a chain. -/
def logKeys (d : Directory) : List RecordKey := (history d).map Prod.fst

omit [Schema Op] [Blake3] in
lemma size_of_holds {d : Directory} {shapes : List Shape} (h : Holds d shapes) :
    d.segments.size = shapes.length :=
  (Tail.size_add_totalBytes h.isSome).1

lemma history_of_holds {d : Directory} {shapes : List Shape} (h : Holds d shapes) :
    history d = occurrences d shapes.length := by
  unfold history
  rw [size_of_holds h]

omit [Schema Op] [Blake3] in
lemma readable_size {d : Directory} {shapes : List Shape} (h : Holds d shapes) :
    d.Readable d.segments.size := by
  rw [size_of_holds h]
  exact readable_of_holds h

/-- The bytes of the decodable records are those of the complete records that can be decoded. -/
lemma map_bytes_occurrences (d : Directory) (k : ℕ) :
    (occurrences d k).map (fun r => r.2.bytes)
      = readableBytes ((d.recordsBelow k).map Record.data) := by
  induction k with
  | zero => rfl
  | succ k ih =>
    have hown : (unitRecords (pages.run none (d.bytesAt k)).units).map RecordRef.data
        = (d.recordsOf k).map Record.data := (map_data_itemRecords _).symm
    unfold occurrences Directory.recordsBelow
    rw [List.map_append, ih, located_eq, map_bytes_decodable, hown, List.range_succ,
      List.flatMap_append, List.map_append]
    simp [readableBytes, Directory.recordsBelow]

lemma decodeOp_of_mem {d : Directory} {k : ℕ} {r : Occurrence} (h : r ∈ occurrences d k) :
    ∃ op, Schema.decodeOp r.2.bytes = .ok op
      ∧ r.1 = ⟨Schema.id op, Blake3.hash r.2.bytes⟩ := by
  induction k with
  | zero => cases h
  | succ k ih =>
    unfold occurrences at h
    rcases List.mem_append.mp h with h | h
    · exact ih h
    · rw [located_eq] at h
      exact (mem_decodable h).2.2

/-- Every record of a history derives its key. -/
lemma fromEncoded_of_mem {d : Directory} {r : Occurrence} (hr : r ∈ history d) :
    RecordKey.fromEncoded r.2.bytes = .ok r.1 := by
  obtain ⟨op, hop, hkey⟩ := decodeOp_of_mem hr
  have hlength : r.2.bytes.length ≤ maxObjectBytes := by
    have hmem : r.2.bytes ∈ readableBytes ((d.recordsBelow d.segments.size).map Record.data) := by
      rw [← map_bytes_occurrences]
      exact List.mem_map_of_mem hr
    obtain ⟨record, hrecord, hdata⟩ := List.mem_map.mp (List.mem_filter.mp hmem).1
    rw [← hdata]
    exact length_le_of_recordsBelow hrecord
  unfold RecordKey.fromEncoded
  rw [if_neg (by omega), hop, hkey]
  rfl

/-- The first occurrence of a key derives it. -/
lemma fromEncoded_of_firstOf {d : Directory} {key : RecordKey} {record : RetainedRecord}
    (h : firstOf (history d) key = some record) :
    RecordKey.fromEncoded record.bytes = .ok key := by
  obtain ⟨o, ho, rfl⟩ := Option.map_eq_some_iff.mp h
  have hkey : o.1 = key := by simpa using List.find?_some ho
  rw [← hkey]
  exact fromEncoded_of_mem (List.mem_of_find?_eq_some ho)

/-- What writing to a chain does to its history: the decodable ones among the added records are
appended, none before the last segment. -/
structure Wrote (d d' : Directory) (added : List Bytes) : Prop where
  grows : d.Grows d'
  size : d.segments.size ≤ d'.segments.size
  history : ∃ new, history d' = history d ++ new
    ∧ new.map (fun r => r.2.bytes) = readableBytes added
    ∧ ∀ r ∈ new, d.segments.size ≤ r.2.segment + 1

lemma wrote_of_extends {d d' : Directory} {shapes shapes' : List Shape} {added : List Record}
    (h : Holds d shapes) (h' : Holds d' shapes')
    (hextends : SegmentStore.Extends d d' shapes shapes' added) :
    Wrote d d' (added.map Record.data) := by
  obtain ⟨new, hnew, hsegments⟩ :=
    occurrences_grow hextends.grows (readable_of_holds h) (readable_of_holds h')
  have hbytes := occurrences_holds h'
  rw [hnew, List.map_append, occurrences_holds h, hextends.records, List.map_append] at hbytes
  unfold readableBytes at hbytes
  rw [List.filter_append, List.append_cancel_left_eq] at hbytes
  refine ⟨hextends.grows, ?_, new, ?_, hbytes, ?_⟩
  · rw [size_of_holds h, size_of_holds h']
    by_contra hlt
    obtain ⟨file, hfile⟩ :=
      (readable_of_holds h).exists_file (show shapes'.length < shapes.length by omega)
    obtain ⟨file', hfile', -⟩ := hextends.grows.kept _ file hfile
    have hsome := (h'.isSome shapes'.length).mp (by rw [hfile']; rfl)
    omega
  · rw [history_of_holds h, history_of_holds h', hnew]
  · rw [size_of_holds h]
    exact hsegments

/-- Nothing that can be decoded was added. -/
lemma Wrote.history_eq {d d' : Directory} (h : Wrote d d' []) : Sync.history d' = Sync.history d := by
  obtain ⟨new, hnew, hbytes, -⟩ := h.history
  rw [hnew, List.map_eq_nil_iff.mp hbytes, List.append_nil]

/-- Only the lock or the marker changed. -/
lemma wrote_of_segments {d d' : Directory} (h : d'.segments = d.segments) : Wrote d d' [] := by
  have hbytes : d'.bytesAt = d.bytesAt := by
    unfold Directory.bytesAt
    rw [h]
  have hsame : ∀ n, occurrences d' n = occurrences d n := by
    intro n
    induction n with
    | zero => rfl
    | succ n ih =>
      unfold occurrences
      rw [ih, hbytes]
  refine ⟨.of_segments h, by rw [h], [], ?_, rfl, by simp⟩
  unfold Sync.history
  rw [h, hsame, List.append_nil]

end EditChain.Sync
