import Mathlib.Data.List.Sort
import EditChain.Store.Reader
import EditChain.Store.ScanTheorems

/-!
# What reading a whole chain amounts to

`CanonicalChain.read` succeeds on a directory whose segments are numbered without a gap and are
framed validly, and admits the records of all segments in order; the segments with bytes beyond
their last complete item are counted.
-/

namespace EditChain.Store

open Core UnitReader

variable {Op : Type} [Schema Op] [Checksum]

/-! ## Records of a segment -/

/-- The records among scanned items, with their places. -/
def recordRefs : List ScanItem → List RecordRef
  | [] => []
  | .page _ _ :: rest => recordRefs rest
  | .record r :: rest => r :: recordRefs rest

/-- A record found `n` bytes further on. -/
def RecordRef.shift (n : ℕ) (r : RecordRef) : RecordRef :=
  { r with offset := n + r.offset, dataOffset := n + r.dataOffset }

omit [Checksum] in
lemma recordRefs_append (xs ys : List ScanItem) :
    recordRefs (xs ++ ys) = recordRefs xs ++ recordRefs ys := by
  induction xs with
  | nil => rfl
  | cons item xs ih => cases item <;> simp [recordRefs, ih]

omit [Checksum] in
lemma recordRefs_shift (n : ℕ) (items : List ScanItem) :
    recordRefs (items.map (·.shift n)) = (recordRefs items).map (·.shift n) := by
  induction items with
  | nil => rfl
  | cons item items ih =>
    rw [List.map_cons]
    cases item with
    | page sequence offset => exact ih
    | record r => exact congrArg (r.shift n :: ·) ih

/-- The records of the units found in a segment. -/
def unitRecords (units : List (ℕ × List ScanItem)) : List RecordRef :=
  recordRefs (PageScanner.unitItems units)

omit [Checksum] in
lemma unitRecords_append (us vs : List (ℕ × List ScanItem)) :
    unitRecords (us ++ vs) = unitRecords us ++ unitRecords vs := by
  unfold unitRecords
  rw [PageScanner.unitItems_append, recordRefs_append]

omit [Checksum] in
lemma unitRecords_shift (n : ℕ) (units : List (ℕ × List ScanItem)) :
    unitRecords (units.map fun u => (n + u.1, u.2)) = (unitRecords units).map (·.shift n) := by
  unfold unitRecords
  rw [← recordRefs_shift]
  congr 1
  simp only [PageScanner.unitItems, List.flatMap_map, List.map_flatMap, List.map_map]
  congr 1
  funext u
  refine List.map_congr_left fun item _ => ?_
  exact (ScanItem.shift_shift n u.1 item).symm

namespace CanonicalChain

/-- Admit scanned records of a segment in order. -/
def admitAll (chain : CanonicalChain Op) (segment : ℕ) (records : List RecordRef) :
    CanonicalChain Op :=
  records.foldl (fun c r => c.scanRecord segment r) chain

omit [Checksum] in
lemma admitAll_append (chain : CanonicalChain Op) (segment : ℕ) (xs ys : List RecordRef) :
    chain.admitAll segment (xs ++ ys) = (chain.admitAll segment xs).admitAll segment ys :=
  List.foldl_append

/-- The chain with another count of incomplete tails. -/
def withTails (chain : CanonicalChain Op) (n : ℕ) : CanonicalChain Op :=
  { chain with counts := { chain.counts with incompleteTails := n } }

omit [Checksum] in
/-- Admission does not look at the count of incomplete tails. -/
lemma scanRecord_withTails (chain : CanonicalChain Op) (n segment : ℕ) (r : RecordRef) :
    (chain.withTails n).scanRecord segment r = (chain.scanRecord segment r).withTails n := by
  unfold scanRecord
  cases Schema.decodeOp r.data with
  | error e => rfl
  | ok op =>
    simp only [admitOp, withTails]
    cases (chain.evidence.insert (Schema.id op) r.data).1 <;> rfl

omit [Checksum] in
lemma admitAll_withTails (chain : CanonicalChain Op) (n segment : ℕ) (records : List RecordRef) :
    (chain.withTails n).admitAll segment records = (chain.admitAll segment records).withTails n := by
  induction records generalizing chain with
  | nil => rfl
  | cons r records ih =>
    show ((chain.withTails n).scanRecord segment r).admitAll segment records = _
    rw [scanRecord_withTails, ih]
    rfl

omit [Checksum] in
lemma admitAll_incompleteTails (chain : CanonicalChain Op) (segment : ℕ)
    (records : List RecordRef) :
    (chain.admitAll segment records).counts.incompleteTails = chain.counts.incompleteTails := by
  have hsame := admitAll_withTails chain chain.counts.incompleteTails segment records
  exact congrArg (·.counts.incompleteTails) hsame

omit [Checksum] in
lemma scanItems_append (segment : ℕ) (items : List ScanItem)
    (rest : List (Except ScanError ScanItem)) (chain : CanonicalChain Op) :
    scanItems segment (items.map .ok ++ rest) chain
      = scanItems segment rest (chain.admitAll segment (recordRefs items)) := by
  induction items generalizing chain with
  | nil => rfl
  | cons item items ih =>
    cases item with
    | page sequence offset => exact ih chain
    | record r => exact ih (chain.scanRecord segment r)

end CanonicalChain

/-! ## Framing errors -/

/-- A rejected unit is never reported as an incomplete tail. -/
lemma chunk_ne_bad_incompleteTail (page : Option UInt32) (x : Bytes) :
    chunk page x ≠ .bad .incompleteTail := by
  by_cases hlt : x.length < 4
  · rw [chunk_of_lt hlt]
    simp
  · rw [chunk_of_head (ByteString.slice?_of_le (s := x) (Nat.zero_le 4) (by omega))]
    cases unitKind page ((x.take 4).drop 0) with
    | frame =>
      show frameChunk x ≠ _
      unfold frameChunk
      split
      · split <;> simp
      · simp
    | page =>
      show pageChunk x ≠ _
      unfold pageChunk
      split <;> simp
    | unsupported => simp [UnitKind.read]
    | orphan => simp [UnitKind.read]
    | record sequence =>
      show recordChunk sequence _ x ≠ _
      unfold recordChunk
      split
      · simp
      · split <;> simp

lemma run_ne_bad_incompleteTail (page : Option UInt32) (x : Bytes) :
    (pages.run page x).ending ≠ .bad .incompleteTail := by
  induction page, x using run_induction (R := pages) with
  | nil page => simp
  | more page x hx h => simp [run_of_more hx h]
  | bad page x e hx h =>
    rw [run_of_bad hx h]
    intro heq
    cases heq
    exact chunk_ne_bad_incompleteTail page x h
  | unit page x items n next h ih =>
    rw [run_of_unit h]
    exact ih

/-- The bytes of a segment beyond its last complete item. -/
def bytesBeyond (bytes : Bytes) : ℕ := bytes.length - (PageScanner.new bytes).items.2.consumed

lemma consumed_new (bytes : Bytes) :
    (PageScanner.new bytes).items.2.consumed = (pages.run none bytes).consumed := by
  have hitems := PageScanner.items_resume bytes none
  exact congrArg (fun r => r.2.offset) hitems

/-- A valid segment is cut exactly when bytes are left over. -/
lemma ending_eq_more_iff {bytes : Bytes} (h : ∀ e, (pages.run none bytes).ending ≠ .bad e) :
    (pages.run none bytes).ending = .more ↔ 0 < bytesBeyond bytes := by
  have hle := consumed_le (R := pages) none bytes
  have hclean := clean_iff_consumed (R := pages) none bytes
  unfold bytesBeyond
  rw [consumed_new]
  cases hending : (pages.run none bytes).ending with
  | clean =>
    have hall := hclean.mp hending
    simp only [reduceCtorEq, false_iff]
    omega
  | more =>
    have hnot : (pages.run none bytes).consumed ≠ bytes.length := by
      intro hall
      rw [hclean.mpr hall] at hending
      cases hending
    simp only [true_iff]
    omega
  | bad e => exact absurd hending (h e)

namespace CanonicalChain

/-- Scanning a segment admits its records and counts a cut one, unless its framing is invalid. -/
lemma scan_eq (chain : CanonicalChain Op) (segment : ℕ) (bytes : Bytes) :
    (∃ e, (pages.run none bytes).ending = .bad e ∧ ∃ error, chain.scan segment bytes = .error error)
      ∨ ((∀ e, (pages.run none bytes).ending ≠ .bad e)
        ∧ chain.scan segment bytes
          = .ok ((chain.admitAll segment (unitRecords (pages.run none bytes).units)).withTails
              (chain.counts.incompleteTails + if 0 < bytesBeyond bytes then 1 else 0))) := by
  have hitems := congrArg Prod.fst (PageScanner.items_resume bytes none)
  simp only at hitems
  unfold scan
  rw [show PageScanner.new bytes = PageScanner.resume bytes none from rfl, hitems, scanItems_append]
  have hcount := admitAll_incompleteTails chain segment (unitRecords (pages.run none bytes).units)
  cases hending : (pages.run none bytes).ending with
  | clean =>
    have hgood : ∀ e, (pages.run none bytes).ending ≠ .bad e := by simp [hending]
    refine .inr ⟨by simp, ?_⟩
    rw [if_neg (fun hpos => by rw [← ending_eq_more_iff hgood, hending] at hpos; cases hpos),
      Nat.add_zero, ← hcount]
    rfl
  | more =>
    have hgood : ∀ e, (pages.run none bytes).ending ≠ .bad e := by simp [hending]
    refine .inr ⟨by simp, ?_⟩
    rw [if_pos ((ending_eq_more_iff hgood).mp hending), ← hcount]
    rfl
  | bad e =>
    have hne : e ≠ .incompleteTail := by
      intro heq
      rw [heq] at hending
      exact run_ne_bad_incompleteTail none bytes hending
    refine .inl ⟨e, rfl, invalid (ScanError.display ⟨(pages.run none bytes).consumed, e⟩), ?_⟩
    rw [PageScanner.endError, scanItems, if_neg hne]

end CanonicalChain

/-! ## Whole directories -/

namespace Directory

/-- The bytes of a segment; a segment that is not there is empty. -/
def bytesAt (d : Directory) (n : ℕ) : Bytes := (d.segments[n]?.map SegmentFile.bytes).getD []

omit [Checksum] in
lemma bytesAt_of_some {d : Directory} {n : ℕ} {file : SegmentFile}
    (h : d.segments[n]? = some file) : d.bytesAt n = file.bytes := by
  simp [bytesAt, h]

omit [Checksum] in
lemma bytesAt_of_none {d : Directory} {n : ℕ} (h : d.segments[n]? = none) : d.bytesAt n = [] := by
  simp [bytesAt, h]

/-- Segments `0` to `k - 1` are there, and their framing is valid. -/
structure Readable (d : Directory) (k : ℕ) : Prop where
  dense : ∀ n : ℕ, d.segments[n]?.isSome ↔ n < k
  sound : ∀ n e, (pages.run none (d.bytesAt n)).ending ≠ .bad e

lemma Readable.exists_file {d : Directory} {k n : ℕ} (h : d.Readable k) (hn : n < k) :
    ∃ file, d.segments[n]? = some file :=
  Option.isSome_iff_exists.mp ((h.dense n).mpr hn)

/-- The corpus of the first `n` segments, incomplete tails not counted. -/
def corpus (d : Directory) : ℕ → CanonicalChain Op
  | 0 => {}
  | n + 1 => (d.corpus n).admitAll n (unitRecords (pages.run none (d.bytesAt n)).units)

/-- The number of the first `n` segments whose bytes beyond the last complete item are as told. -/
def countBeyond (p : ℕ → Bool) (d : Directory) : ℕ → ℕ
  | 0 => 0
  | n + 1 => d.countBeyond p n + if p (bytesBeyond (d.bytesAt n)) then 1 else 0

/-- Segments with a cut item. -/
def cut (beyond : ℕ) : Bool := 0 < beyond

end Directory

open Directory

omit [Checksum] in
lemma keys_eq_range {β : Type} {m : Std.ExtTreeMap ℕ β} {k : ℕ}
    (h : ∀ n, m[n]?.isSome ↔ n < k) : m.keys = List.range k := by
  have hkeys : m.keys.Pairwise (· < ·) := by
    refine Std.ExtTreeMap.ordered_keys.imp ?_
    intro a b hab
    exact Nat.compare_eq_lt.mp hab
  refine List.Perm.eq_of_pairwise' hkeys List.pairwise_lt_range ?_
  refine (List.perm_ext_iff_of_nodup Std.ExtTreeMap.nodup_keys List.nodup_range).mpr ?_
  intro n
  rw [Std.ExtTreeMap.mem_keys, ← Std.ExtTreeMap.isSome_getElem?_iff_mem, h, List.mem_range]

omit [Checksum] in
lemma contiguous_range' (a k : ℕ) (h : a + k ≤ sequenceLimit) :
    Directory.contiguous a (List.range' a k) = true := by
  induction k generalizing a with
  | zero => rfl
  | succ k ih =>
    rw [List.range'_succ, Directory.contiguous, if_pos ⟨by omega, rfl⟩]
    exact ih (a + 1) (by omega)

omit [Checksum] in
/-- A contiguous list of numbers is a range. -/
lemma eq_range'_of_contiguous {a : ℕ} {xs : List ℕ} (h : Directory.contiguous a xs = true)
    (hbound : a ≤ sequenceLimit) :
    xs = List.range' a xs.length ∧ a + xs.length ≤ sequenceLimit := by
  induction xs generalizing a with
  | nil => exact ⟨rfl, hbound⟩
  | cons x xs ih =>
    unfold Directory.contiguous at h
    split at h
    · next hhead =>
      obtain ⟨heq, hlen⟩ := ih h (by omega)
      rw [List.length_cons, List.range'_succ, ← heq, hhead.2]
      exact ⟨rfl, by omega⟩
    · cases h

/-- Reading segments one after another, from where the corpus of those before has been read. -/
lemma readSegments_eq {d : Directory} {k : ℕ} (hd : ∀ n : ℕ, d.segments[n]?.isSome ↔ n < k)
    (a m : ℕ) (ham : a + m = k) :
    let outcome := CanonicalChain.readSegments d (List.range' a m)
      ((d.corpus a : CanonicalChain Op).withTails (d.countBeyond cut a))
    ((∀ n, a ≤ n → n < k → ∀ e, (pages.run none (d.bytesAt n)).ending ≠ .bad e)
        ∧ outcome = .ok ((d.corpus k).withTails (d.countBeyond cut k)))
      ∨ ((∃ n e, (pages.run none (d.bytesAt n)).ending = .bad e)
        ∧ ∃ error, outcome = .error error) := by
  induction m generalizing a with
  | zero =>
    obtain rfl : a = k := by omega
    exact .inl ⟨fun n hle hlt => absurd hlt (by omega), rfl⟩
  | succ m ih =>
    obtain ⟨file, hfile⟩ := Option.isSome_iff_exists.mp ((hd a).mpr (by omega))
    have hread : d.read a = .ok (d.bytesAt a) := by
      rw [bytesAt_of_some hfile]
      simp [Directory.read, hfile]
    simp only [List.range'_succ, CanonicalChain.readSegments, hread, bind, Except.bind]
    rcases CanonicalChain.scan_eq ((d.corpus a : CanonicalChain Op).withTails (d.countBeyond cut a)) a
      (d.bytesAt a) with ⟨e, hbad, error, hscan⟩ | ⟨hgood, hscan⟩
    · rw [hscan]
      exact .inr ⟨⟨a, e, hbad⟩, error, rfl⟩
    · have hnext : CanonicalChain.scan
          ((d.corpus a : CanonicalChain Op).withTails (d.countBeyond cut a)) a (d.bytesAt a)
          = .ok ((d.corpus (a + 1)).withTails (d.countBeyond cut (a + 1))) := by
        rw [hscan, CanonicalChain.admitAll_withTails]
        simp [corpus, countBeyond, cut, CanonicalChain.withTails]
      rw [hnext]
      rcases ih (a + 1) (by omega) with ⟨hrest, hok⟩ | herror
      · refine .inl ⟨fun n hle hlt => ?_, hok⟩
        by_cases heq : n = a
        · rw [heq]
          exact hgood
        · exact hrest n (by omega) hlt
      · exact .inr herror

/-- Reading a readable directory yields the corpus of all its segments. -/
lemma read_of_readable {d : Directory} {k : ℕ} (h : d.Readable k) (hlimit : k ≤ sequenceLimit)
    (hnamed : d.misnamed = none) :
    CanonicalChain.read d
      = .ok ((d.corpus k : CanonicalChain Op).withTails (d.countBeyond cut k)) := by
  have hsequences : d.segmentSequences = .ok (List.range' 0 k) := by
    unfold Directory.segmentSequences
    rw [hnamed, keys_eq_range h.dense, List.range_eq_range',
      if_pos (contiguous_range' 0 k (by omega))]
  unfold CanonicalChain.read
  rw [hsequences]
  rcases @readSegments_eq Op _ _ d k h.dense 0 k (by omega) with ⟨-, hok⟩ | ⟨⟨n, e, hbad⟩, -⟩
  · exact hok
  · exact absurd hbad (h.sound n e)

omit [Checksum] in
/-- Segments are listed only if they are numbered from zero without gaps. -/
lemma segmentSequences_eq_ok {d : Directory} {sequences : List ℕ}
    (h : d.segmentSequences = .ok sequences) :
    sequences = List.range' 0 d.segments.size ∧ d.segments.size ≤ sequenceLimit
      ∧ ∀ n : ℕ, d.segments[n]?.isSome ↔ n < d.segments.size := by
  unfold Directory.segmentSequences at h
  split at h
  · cases h
  · split at h
    · next hcontiguous =>
      cases h
      obtain ⟨hkeys, hlimit⟩ := eq_range'_of_contiguous hcontiguous (Nat.zero_le _)
      rw [Std.ExtTreeMap.length_keys] at hkeys hlimit
      refine ⟨hkeys, by omega, fun n => ?_⟩
      rw [Std.ExtTreeMap.isSome_getElem?_iff_mem, ← Std.ExtTreeMap.mem_keys, hkeys,
        ← List.range_eq_range', List.mem_range]
    · cases h

omit [Checksum] in
/-- A segment that is not there has no bytes. -/
lemma bytesAt_of_dense {d : Directory} {k n : ℕ} (hdense : ∀ n : ℕ, d.segments[n]?.isSome ↔ n < k)
    (hn : k ≤ n) : d.bytesAt n = [] := by
  apply bytesAt_of_none
  rw [← Option.not_isSome_iff_eq_none, hdense]
  omega

/-- Only a readable directory is read. -/
lemma readable_of_read {d : Directory} {chain : CanonicalChain Op}
    (h : CanonicalChain.read d = .ok chain) :
    ∃ k, d.Readable k ∧ k ≤ sequenceLimit
      ∧ chain = (d.corpus k).withTails (d.countBeyond cut k) := by
  unfold CanonicalChain.read at h
  obtain ⟨sequences, hsequences, hread⟩ := Fallible.bind_eq_ok.mp h
  obtain ⟨rfl, hlimit, hdense⟩ := segmentSequences_eq_ok hsequences
  set k := d.segments.size
  rcases @readSegments_eq Op _ _ d k hdense 0 k (by omega) with ⟨hgood, hok⟩ | ⟨-, error, herror⟩
  · have heq : Except.ok chain = Except.ok _ := hread.symm.trans hok
    refine ⟨k, ⟨hdense, fun n e => ?_⟩, hlimit, Except.ok.inj heq⟩
    by_cases hn : n < k
    · exact hgood n (Nat.zero_le _) hn e
    · rw [bytesAt_of_dense hdense (by omega)]
      simp
  · have heq : Except.ok chain = Except.error error := hread.symm.trans herror
    cases heq

/-! ## Growing directories -/

/-- A file after some bytes have been appended to it. -/
structure SegmentFile.Grown (file file' : SegmentFile) : Prop where
  identity : file'.identity = file.identity
  bytes : file.bytes <+: file'.bytes
  modified : file'.bytes.length = file.bytes.length → file'.modified = file.modified

/-- A later state of a directory: files have only grown, and those before another segment have not
changed. -/
structure Directory.Grows (d d' : Directory) : Prop where
  kept : ∀ (n : ℕ) (file : SegmentFile), d.segments[n]? = some file →
    ∃ file', d'.segments[n]? = some file' ∧ file.Grown file'
  frozen : ∀ m n : ℕ, m < n → d.segments[n]? ≠ none → d'.segments[m]? = d.segments[m]?

omit [Checksum] in
lemma SegmentFile.Grown.refl (file : SegmentFile) : file.Grown file :=
  ⟨rfl, List.prefix_rfl, fun _ => rfl⟩

omit [Checksum] in
lemma SegmentFile.Grown.trans {x y z : SegmentFile} (h : x.Grown y) (h' : y.Grown z) :
    x.Grown z := by
  have hxy := h.bytes.length_le
  have hyz := h'.bytes.length_le
  refine ⟨h'.identity.trans h.identity, h.bytes.trans h'.bytes, fun hlen => ?_⟩
  rw [h'.modified (by omega), h.modified (by omega)]

namespace Directory

omit [Checksum] in
lemma Grows.of_segments {d d' : Directory} (h : d'.segments = d.segments) : d.Grows d' := by
  refine ⟨fun n file hfile => ⟨file, by rw [h, hfile], .refl file⟩, fun m n _ _ => ?_⟩
  rw [h]

omit [Checksum] in
/-- An empty directory may become any other. -/
lemma Grows.of_empty (d : Directory) : Directory.empty.Grows d := by
  have hnone : ∀ n : ℕ, Directory.empty.segments[n]? = none := by
    intro n
    show (∅ : Std.ExtTreeMap ℕ SegmentFile)[n]? = none
    simp
  refine ⟨fun n file hfile => ?_, fun m n _ hsome => absurd (hnone n) hsome⟩
  rw [hnone n] at hfile
  cases hfile

lemma Readable.of_segments {d d' : Directory} {k : ℕ} (h : d'.segments = d.segments)
    (hd : d.Readable k) : d'.Readable k := by
  have hbytes : d'.bytesAt = d.bytesAt := by
    unfold bytesAt
    rw [h]
  refine ⟨?_, ?_⟩
  · rw [h]
    exact hd.dense
  · rw [hbytes]
    exact hd.sound

omit [Checksum] in
lemma Grows.trans {d d' d'' : Directory} (h : d.Grows d') (h' : d'.Grows d'') : d.Grows d'' := by
  refine ⟨fun n file hfile => ?_, fun m n hmn hn => ?_⟩
  · obtain ⟨file', hfile', hgrown⟩ := h.kept n file hfile
    obtain ⟨file'', hfile'', hgrown'⟩ := h'.kept n file' hfile'
    exact ⟨file'', hfile'', hgrown.trans hgrown'⟩
  · have hn' : d'.segments[n]? ≠ none := by
      obtain ⟨file, hfile⟩ := Option.ne_none_iff_exists'.mp hn
      obtain ⟨file', hfile', -⟩ := h.kept n file hfile
      simp [hfile']
    rw [h'.frozen m n hmn hn', h.frozen m n hmn hn]

omit [Checksum] in
lemma Grows.bytesAt {d d' : Directory} (h : d.Grows d') (n : ℕ) :
    d.bytesAt n <+: d'.bytesAt n := by
  cases hfile : d.segments[n]? with
  | none =>
    rw [bytesAt_of_none hfile]
    exact List.nil_prefix
  | some file =>
    obtain ⟨file', hfile', hgrown⟩ := h.kept n file hfile
    rw [bytesAt_of_some hfile, bytesAt_of_some hfile']
    exact hgrown.bytes

omit [Checksum] in
lemma Grows.bytesAt_eq {d d' : Directory} (h : d.Grows d') {m n : ℕ} (hmn : m < n)
    (hn : d.segments[n]? ≠ none) : d'.bytesAt m = d.bytesAt m := by
  unfold Directory.bytesAt
  rw [h.frozen m n hmn hn]

/-- Earlier states of a readable directory were readable. -/
lemma Readable.of_grows {d d' : Directory} {k' : ℕ} (h : d.Grows d') (hd' : d'.Readable k') :
    ∃ k ≤ k', d.Readable k := by
  have hsome : ∀ n : ℕ, d.segments[n]? ≠ none → n < k' := by
    intro n hn
    obtain ⟨file, hfile⟩ := Option.ne_none_iff_exists'.mp hn
    obtain ⟨file', hfile', -⟩ := h.kept n file hfile
    rw [← hd'.dense, hfile']
    rfl
  have hend : d.segments[k']? = none := by
    by_contra hne
    exact lt_irrefl k' (hsome k' hne)
  let k := Nat.find (p := fun n => d.segments[n]? = none) ⟨k', hend⟩
  have hk : d.segments[k]? = none := Nat.find_spec (p := fun n => d.segments[n]? = none) ⟨k', hend⟩
  have hmin : ∀ n < k, d.segments[n]? ≠ none := fun n hn =>
    Nat.find_min (p := fun n => d.segments[n]? = none) ⟨k', hend⟩ hn
  refine ⟨k, Nat.find_min' (p := fun n => d.segments[n]? = none) ⟨k', hend⟩ hend, fun n => ?_,
    fun n e hbad => ?_⟩
  · rw [Option.isSome_iff_ne_none]
    refine ⟨fun hn => ?_, hmin n⟩
    by_contra hle
    -- a gap before an existing segment is never filled, but the later directory has no gap
    have hlt : k < n := by
      have hne : n ≠ k := fun heq => hn (heq ▸ hk)
      omega
    have hgap := h.frozen k n hlt hn
    have hin := (hd'.dense k).mpr (lt_trans hlt (hsome n hn))
    rw [hgap, hk] at hin
    cases hin
  · obtain ⟨y, hy⟩ := h.bytesAt n
    refine hd'.sound n e ?_
    rw [← hy, run_append_of_bad none (d.bytesAt n) y hbad]
    exact hbad

end Directory

end EditChain.Store
