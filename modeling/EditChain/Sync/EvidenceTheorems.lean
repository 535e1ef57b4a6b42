import EditChain.Lib.Outcome
import EditChain.Store.TailTheorems
import EditChain.Sync.Evidence

/-!
# What the retained reader holds

The corpus of a successful read maps every key in the chain to the bytes and the segment of its
first occurrence. A read that fails part of the way may have admitted records beyond its frontier;
they are admitted again, as duplicates, by the next one.
-/

namespace EditChain.Sync

open Core Fallible Store UnitReader
open Std (ExtTreeMap)

variable {Op : Type} [Schema Op] [Blake3]

/-! ## First occurrences -/

/-- A decodable record with its key and its segment. -/
abbrev Occurrence := RecordKey × RetainedRecord

/-- The first occurrence of a key. -/
def firstOf (l : List Occurrence) (key : RecordKey) : Option RetainedRecord :=
  (l.find? fun r => decide (r.1 = key)).map Prod.snd

/-- The decodable records among the records of a segment. -/
def located (segment : ℕ) (records : List RecordRef) : List Occurrence :=
  records.filterMap fun r =>
    match Schema.decodeOp r.data with
    | .ok op => some (⟨Schema.id op, Blake3.hash r.data⟩, ⟨r.data, segment⟩)
    | .error _ => none

/-- The corpus maps every key to its first occurrence, and no two occurrences collide. -/
structure Shows (l : List Occurrence) (corpus : Corpus) : Prop where
  first : ∀ key, corpus.records[key]? = firstOf l key
  agree : ∀ r ∈ l, ∀ r' ∈ l, r.1 = r'.1 → r.2.bytes = r'.2.bytes

omit [Schema Op] [Blake3] in
lemma firstOf_append (l m : List Occurrence) (key : RecordKey) :
    firstOf (l ++ m) key = (firstOf l key).or (firstOf m key) := by
  unfold firstOf
  rw [List.find?_append]
  cases l.find? fun r => decide (r.1 = key) <;> rfl

omit [Schema Op] [Blake3] in
/-- Repeating the beginning of what follows changes nothing. -/
lemma firstOf_repeat {extra rest : List Occurrence} (h : extra <+: rest) (l : List Occurrence)
    (key : RecordKey) : firstOf (l ++ extra ++ rest) key = firstOf (l ++ rest) key := by
  obtain ⟨more, rfl⟩ := h
  simp only [firstOf_append]
  cases firstOf l key <;> cases firstOf extra key <;> simp

omit [Schema Op] [Blake3] in
/-- Repeating a beginning after the whole changes nothing. -/
lemma firstOf_again {extra rest : List Occurrence} (h : rest <+: extra) (l : List Occurrence)
    (key : RecordKey) : firstOf (l ++ extra ++ rest) key = firstOf (l ++ extra) key := by
  obtain ⟨more, rfl⟩ := h
  simp only [firstOf_append]
  cases firstOf l key <;> cases firstOf rest key <;> simp

omit [Schema Op] [Blake3] in
lemma firstOf_isSome {l : List Occurrence} {key : RecordKey} :
    (firstOf l key).isSome ↔ ∃ r ∈ l, r.1 = key := by
  simp [firstOf]

lemma located_append (segment : ℕ) (xs ys : List RecordRef) :
    located segment (xs ++ ys) = located segment xs ++ located segment ys :=
  List.filterMap_append

/-- Where the records lie does not matter. -/
lemma located_shift (segment n : ℕ) (records : List RecordRef) :
    located segment (records.map (·.shift n)) = located segment records := by
  unfold located
  rw [List.filterMap_map]
  rfl

/-! ## Admission -/

omit [Schema Op] [Blake3] in
/-- One more occurrence that agrees with those before it. -/
lemma agree_append {l : List Occurrence} {o : Occurrence}
    (h : ∀ r ∈ l, ∀ r' ∈ l, r.1 = r'.1 → r.2.bytes = r'.2.bytes)
    (hnew : ∀ r ∈ l, r.1 = o.1 → r.2.bytes = o.2.bytes) :
    ∀ r ∈ l ++ [o], ∀ r' ∈ l ++ [o], r.1 = r'.1 → r.2.bytes = r'.2.bytes := by
  intro r hr r' hr' hkey
  rcases List.mem_append.mp hr with hr | hr <;> rcases List.mem_append.mp hr' with hr' | hr'
  · exact h r hr r' hr' hkey
  · rw [List.mem_singleton.mp hr'] at hkey ⊢
    exact hnew r hr hkey
  · rw [List.mem_singleton.mp hr] at hkey ⊢
    exact (hnew r' hr' hkey.symm).symm
  · rw [List.mem_singleton.mp hr, List.mem_singleton.mp hr']

/-- What a corpus shows after more records were fed to it: all of them, or those before a failure. -/
def Shown {α : Type} (l more : List Occurrence) : Except IoError α → Corpus → Prop
  | .ok _, corpus => Shows (l ++ more) corpus
  | .error _, corpus => ∃ extra, extra <+: more ∧ Shows (l ++ extra) corpus

/-- Admitting a record retains its first occurrence; a failure changes nothing. -/
lemma admitRecord_shows {l : List Occurrence} {corpus corpus' : Corpus} (h : Shows l corpus)
    {op : Op} {encoded : Bytes} {location : OpRecordLocation} {result : Except IoError Admission}
    (hrun : (Corpus.admitRecord op encoded location).exec corpus = (result, corpus')) :
    Shown l [(⟨Schema.id op, Blake3.hash encoded⟩, ⟨encoded, location.segmentSeq⟩)] result
      corpus' := by
  unfold Corpus.admitRecord at hrun
  rw [exec_bind_of_ok (exec_modify _ corpus), exec_bind_of_ok (exec_get _)] at hrun
  simp only at hrun
  have hfound := h.first ⟨Schema.id op, Blake3.hash encoded⟩
  cases hprevious : corpus.records[(⟨Schema.id op, Blake3.hash encoded⟩ : RecordKey)]? with
  | some previous =>
    rw [hprevious] at hrun hfound
    by_cases hsame : previous.bytes = encoded
    · simp only [hsame, ne_eq, not_true, if_false] at hrun
      cases hrun
      refine ⟨fun key => ?_, agree_append h.agree fun r hr hkey => ?_⟩
      · rw [firstOf_append]
        by_cases hkey : (⟨Schema.id op, Blake3.hash encoded⟩ : RecordKey) = key
        · rw [← hkey, ← hfound]
          exact hprevious
        · have hnone : firstOf [((⟨Schema.id op, Blake3.hash encoded⟩ : RecordKey),
              (⟨encoded, location.segmentSeq⟩ : RetainedRecord))] key = none := by
            simp [firstOf, hkey]
          rw [hnone, Option.or_none]
          exact h.first key
      · -- the bytes are those of the first occurrence
        obtain ⟨o, ho, hsnd⟩ := Option.map_eq_some_iff.mp hfound.symm
        have hfst : o.1 = ⟨Schema.id op, Blake3.hash encoded⟩ := by
          simpa using List.find?_some ho
        rw [h.agree r hr o (List.mem_of_find?_eq_some ho) (hkey.trans hfst.symm), hsnd]
        exact hsame
    · simp only [ne_eq, hsame, not_false_eq_true, if_true] at hrun
      cases hrun
      refine ⟨[], List.nil_prefix, ?_⟩
      rw [List.append_nil]
      exact ⟨h.first, h.agree⟩
  | none =>
    rw [hprevious] at hrun hfound
    simp only at hrun
    rw [exec_bind_of_ok (exec_set _ _)] at hrun
    cases hrun
    refine ⟨fun key => ?_, agree_append h.agree fun r hr hkey => ?_⟩
    · rw [firstOf_append]
      show (corpus.records.insert _ _)[key]? = _
      rw [ExtTreeMap.getElem?_insert]
      by_cases hkey : (⟨Schema.id op, Blake3.hash encoded⟩ : RecordKey) = key
      · rw [← hkey, ← hfound]
        simp [firstOf]
      · have hnone : firstOf [((⟨Schema.id op, Blake3.hash encoded⟩ : RecordKey),
            (⟨encoded, location.segmentSeq⟩ : RetainedRecord))] key = none := by
          simp [firstOf, hkey]
        rw [hnone, Option.or_none, if_neg (by simpa using hkey)]
        exact h.first key
    · -- the key is new
      have hsome := firstOf_isSome.mpr ⟨r, hr, hkey⟩
      rw [← hfound] at hsome
      cases hsome

/-- A tail after a change of its corpus only. -/
def SameFrontier (tail tail' : Tail Corpus) : Prop := tail' = { tail with chain := tail'.chain }

/-- One record is admitted, unless it cannot be decoded. -/
lemma admitOne_shows {d : Directory} {record : RecordRef} {delta : ChainDelta Op}
    {tail tail' : Tail Corpus} {l : List Occurrence} (h : Shows l tail.chain)
    {result : Except IoError (ChainDelta Op)}
    (hrun : (Tail.admitOne d record delta).exec tail = (result, tail')) :
    SameFrontier tail tail' ∧ Shown l (located tail.segment [record]) result tail'.chain := by
  unfold Tail.admitOne at hrun
  cases hop : Schema.decodeOp record.data with
  | error e =>
    rw [hop] at hrun
    cases hrun
    refine ⟨rfl, ?_⟩
    simp only [located, List.filterMap_cons, hop, List.filterMap_nil, Shown, List.append_nil]
    exact h
  | ok op =>
    rw [hop] at hrun
    simp only at hrun
    rw [exec_bind_of_ok (exec_get tail), exec_bind] at hrun
    unfold Tail.onChain at hrun
    rw [exec_zoom] at hrun
    cases hfirst : (TailCorpus.admitRecord d op record.data
        (⟨tail.segment, tail.offset + record.dataOffset, record.data.length, record.checksum⟩ :
          OpRecordLocation)).exec tail.chain with
    | mk r corpus =>
      have hshows := admitRecord_shows h hfirst
      simp only [hfirst] at hrun
      cases r with
      | ok admission =>
        cases hrun
        refine ⟨rfl, ?_⟩
        simpa [located, hop, Shown] using hshows
      | error e =>
        cases hrun
        refine ⟨rfl, ?_⟩
        simpa [located, hop, Shown] using hshows

/-- Records are admitted in order; a failure leaves those before it admitted. -/
lemma admitRecords_shows {d : Directory} {records : List RecordRef} {delta : ChainDelta Op}
    {tail tail' : Tail Corpus} {l : List Occurrence} (h : Shows l tail.chain)
    {result : Except IoError (ChainDelta Op)}
    (hrun : (Tail.admitRecords d records delta).exec tail = (result, tail')) :
    SameFrontier tail tail' ∧ Shown l (located tail.segment records) result tail'.chain := by
  induction records generalizing delta tail l with
  | nil =>
    cases hrun
    refine ⟨rfl, ?_⟩
    simpa [located, Shown] using h
  | cons record records ih =>
    have hsplit : located tail.segment (record :: records)
        = located tail.segment [record] ++ located tail.segment records :=
      located_append tail.segment [record] records
    unfold Tail.admitRecords at hrun
    rw [exec_bind] at hrun
    cases hone : (Tail.admitOne d record delta).exec tail with
    | mk r tail₁ =>
      obtain ⟨hsame, hshows⟩ := admitOne_shows h hone
      simp only [hone] at hrun
      cases r with
      | error e =>
        cases hrun
        obtain ⟨extra, hextra, hshown⟩ := hshows
        refine ⟨hsame, extra, ?_, hshown⟩
        rw [hsplit]
        exact hextra.trans (List.prefix_append _ _)
      | ok delta₁ =>
        obtain ⟨hsame', hrest⟩ := ih hshows hrun
        have hsegment : tail₁.segment = tail.segment := by rw [hsame]
        rw [hsegment] at hrest
        refine ⟨?_, ?_⟩
        · show tail' = { tail with chain := tail'.chain }
          rw [hsame', hsame]
        · cases result with
          | ok delta₂ =>
            unfold Shown at hrest ⊢
            rwa [hsplit, ← List.append_assoc]
          | error e =>
            obtain ⟨extra, hextra, hshown⟩ := hrest
            refine ⟨located tail.segment [record] ++ extra, ?_, ?_⟩
            · rw [hsplit]
              exact (List.prefix_append_right_inj _).mpr hextra
            · rwa [← List.append_assoc]

variable [Checksum]

/-! ## Following a directory -/

/-- The decodable records of the first `n` segments, in order. -/
def occurrences (d : Directory) : ℕ → List Occurrence
  | 0 => []
  | n + 1 => occurrences d n ++ located n (unitRecords (pages.run none (d.bytesAt n)).units)

/-- What is read of the frontier segment from the offset on. -/
def restOf (d : Directory) (tail : Tail Corpus) : List Occurrence :=
  located tail.segment
    (unitRecords (pages.run tail.page ((d.bytesAt tail.segment).drop tail.offset)).units)

/-- The tail shows the records before its frontier, and possibly some of those right after it. -/
structure Reads (d : Directory) (tail : Tail Corpus) : Prop where
  reached : 0 < tail.segment → d.segments[tail.segment]? ≠ none
  observed : ∀ stamp, tail.observed = some stamp →
    ∃ file, d.segments[tail.segment]? = some file ∧ stamp.Saw file
  held : ∃ units extra, pages.Boundary none (d.bytesAt tail.segment) tail.offset units tail.page
    ∧ extra <+: restOf d tail
    ∧ Shows (occurrences d tail.segment ++ located tail.segment (unitRecords units) ++ extra)
      tail.chain

omit [Checksum] in
lemma located_shifted (segment n : ℕ) (scan : Scan (Option UInt32) (List ScanItem) ScanErrorKind) :
    located segment (unitRecords (scan.shift n).units)
      = located segment (unitRecords scan.units) := by
  have hshift : unitRecords (scan.shift n).units = (unitRecords scan.units).map (·.shift n) :=
    unitRecords_shift n scan.units
  rw [hshift, located_shift]

/-- Reading everything is reading on from a boundary. -/
lemma located_split {bytes : Bytes} {n : ℕ} {units : List (ℕ × List ScanItem)}
    {page : Option UInt32} (h : pages.Boundary none bytes n units page) (segment : ℕ) :
    located segment (unitRecords (pages.run none bytes).units)
      = located segment (unitRecords units)
        ++ located segment (unitRecords (pages.run page (bytes.drop n)).units) := by
  rw [h.run_eq]
  show located segment (unitRecords (units ++ _)) = _
  rw [unitRecords_append, located_append, located_shifted]

/-- More bytes only add records. -/
lemma located_prefix {x y : Bytes} (h : x <+: y) (segment : ℕ) :
    located segment (unitRecords (pages.run none x).units)
      <+: located segment (unitRecords (pages.run none y).units) := by
  obtain ⟨more, rfl⟩ := h
  have hpart : x <+: x.drop 0 := List.prefix_rfl
  have hwhole := (Boundary.zero pages none x).advance hpart
  rw [located_split (hwhole.append more) segment, located_split hwhole segment]
  have hidle := located_split hwhole segment
  have hself : located segment (unitRecords (pages.run none x).units)
      = located segment (unitRecords ([] ++ ((pages.run none x).shift 0).units)) := by
    rw [List.nil_append, located_shifted]
  rw [hself] at hidle
  have hnil : located segment (unitRecords (pages.run (pages.run none x).state
      (x.drop (0 + (pages.run none x).consumed))).units) = [] := by
    simpa using hidle.symm
  rw [hnil, List.append_nil]
  exact List.prefix_append _ _

/-- The records before an existing segment do not change. -/
lemma occurrences_of_grows {d d' : Directory} (h : d.Grows d') {n : ℕ}
    (hn : 0 < n → d.segments[n]? ≠ none) : occurrences d' n = occurrences d n := by
  have key : ∀ m ≤ n, occurrences d' m = occurrences d m := by
    intro m hm
    induction m with
    | zero => rfl
    | succ m ih =>
      unfold occurrences
      rw [ih (by omega), h.bytesAt_eq (by omega : m < n) (hn (by omega))]
  exact key n le_rfl

lemma reads_empty (d : Directory) (root : String) : Reads d (Tail.empty root) := by
  refine ⟨fun h => absurd h (lt_irrefl 0), fun stamp h => (by cases h), [], [],
    Boundary.zero pages none _, List.nil_prefix, fun key => ?_, fun r hr => (by cases hr)⟩
  show (∅ : ExtTreeMap RecordKey RetainedRecord)[key]? = none
  simp

/-- A tail goes on reading a directory that grows. -/
lemma Reads.grows {d d' : Directory} {tail : Tail Corpus} (h : Reads d tail)
    (hgrows : d.Grows d') : Reads d' tail := by
  obtain ⟨units, extra, hboundary, hextra, hshows⟩ := h.held
  obtain ⟨y, hy⟩ := hgrows.bytesAt tail.segment
  have hboundary' : pages.Boundary none (d'.bytesAt tail.segment) tail.offset units tail.page := by
    rw [← hy]
    exact hboundary.append y
  refine ⟨?_, ?_, units, extra, hboundary', hextra.trans ?_, ?_⟩
  · intro hpos
    obtain ⟨file, hfile⟩ := Option.ne_none_iff_exists'.mp (h.reached hpos)
    obtain ⟨file', hfile', -⟩ := hgrows.kept tail.segment file hfile
    simp [hfile']
  · intro stamp hstamp
    obtain ⟨file, hfile, hsaw⟩ := h.observed stamp hstamp
    obtain ⟨file', hfile', hgrown⟩ := hgrows.kept tail.segment file hfile
    exact ⟨file', hfile', hsaw.grown hgrown⟩
  · have hprefix := located_prefix (hgrows.bytesAt tail.segment) tail.segment
    rw [located_split hboundary tail.segment, located_split hboundary' tail.segment,
      List.prefix_append_right_inj] at hprefix
    exact hprefix
  · rw [occurrences_of_grows hgrows h.reached]
    exact hshows

/-- The frontier opens if its segment is there. -/
lemma Reads.openFrontier {d : Directory} {tail : Tail Corpus} (h : Reads d tail) :
    tail.openFrontier d = .ok (d.segments[tail.segment]?.map FileStamp.read) := by
  unfold Tail.openFrontier
  cases hfile : d.segments[tail.segment]? with
  | none =>
    have hnone : tail.observed = none := by
      by_contra hne
      obtain ⟨stamp, hstamp⟩ := Option.ne_none_iff_exists'.mp hne
      obtain ⟨file, hsome, -⟩ := h.observed stamp hstamp
      rw [hfile] at hsome
      cases hsome
    simp [hnone]
  | some file =>
    have hvalid : tail.validateFrontier d (FileStamp.read file) = .ok () := by
      apply Tail.validateFrontier_of_saw
      intro stamp hstamp
      obtain ⟨file', hfile', hsaw⟩ := h.observed stamp hstamp
      rw [hfile] at hfile'
      cases hfile'
      exact hsaw
    simp only [hvalid, Option.map_some]

omit [Blake3] [Checksum] in
/-- What a tail shows beyond its frontier, after more of the rest was admitted. -/
lemma shows_more {l extra more rest : List Occurrence} {corpus : Corpus} (hextra : extra <+: rest)
    (hmore : more <+: rest) (h : Shows (l ++ extra ++ more) corpus) :
    (extra <+: more ∧ Shows (l ++ more) corpus)
      ∨ (more <+: extra ∧ Shows (l ++ extra) corpus) := by
  rcases List.prefix_or_prefix_of_prefix hextra hmore with hshort | hlong
  · refine .inl ⟨hshort, fun key => ?_, fun r hr r' hr' => ?_⟩
    · rw [h.first key, firstOf_repeat hshort]
    · have hin : ∀ o ∈ l ++ more, o ∈ l ++ extra ++ more := by
        intro o ho
        rw [List.append_assoc]
        rcases List.mem_append.mp ho with ho | ho
        · exact List.mem_append_left _ ho
        · exact List.mem_append_right _ (List.mem_append_right _ ho)
      exact h.agree r (hin r hr) r' (hin r' hr')
  · refine .inr ⟨hlong, fun key => ?_, fun r hr r' hr' => ?_⟩
    · rw [h.first key, firstOf_again hlong]
    · exact h.agree r (List.mem_append_left _ hr) r' (List.mem_append_left _ hr')

/-! ## Reading on -/

/-- Scanning a slice of the frontier segment: the frontier moves over its complete units, or the
scan fails and only the corpus may have changed. -/
lemma Reads.scan {d : Directory} {tail tail' : Tail Corpus} (h : Reads d tail) {bytes : Bytes}
    (hpart : bytes <+: (d.bytesAt tail.segment).drop tail.offset) {delta : ChainDelta Op}
    {result : Except IoError (Bool × ChainDelta Op)}
    (hrun : (Tail.scan d bytes delta).exec tail = (result, tail')) :
    Reads d tail' ∧ ∀ outcome, result = .ok outcome →
      tail' = { tail with
        chain := tail'.chain
        offset := tail.offset + (pages.run tail.page bytes).consumed
        page := (pages.run tail.page bytes).state } := by
  obtain ⟨units, extra, hboundary, hextra, hshows⟩ := h.held
  have hnext := hboundary.advance hpart
  -- the rest of the segment is the slice's records and what follows them
  have hrest : restOf d tail
      = located tail.segment (unitRecords (pages.run tail.page bytes).units)
        ++ located tail.segment (unitRecords (pages.run (pages.run tail.page bytes).state
            ((d.bytesAt tail.segment).drop
              (tail.offset + (pages.run tail.page bytes).consumed))).units) := by
    have hold := located_split hboundary tail.segment
    rw [located_split hnext tail.segment, unitRecords_append, located_append,
      List.append_assoc, List.append_cancel_left_eq, located_shifted] at hold
    rw [restOf, ← hold]
  unfold Tail.scan at hrun
  rw [exec_bind_of_ok (exec_get tail)] at hrun
  simp only at hrun
  rw [exec_bind, exec_lift] at hrun
  cases hcomplete : Tail.completeRecords (PageScanner.resume bytes tail.page).items.1 with
  | error e =>
    rw [hcomplete] at hrun
    cases hrun
    exact ⟨h, fun outcome hok => (by cases hok)⟩
  | ok records =>
    have hrecords : records = unitRecords (pages.run tail.page bytes).units := by
      rw [congrArg Prod.fst (PageScanner.items_resume bytes tail.page),
        Tail.completeRecords_append] at hcomplete
      obtain ⟨last, hlast, hall⟩ := bind_eq_ok.mp hcomplete
      rw [pure_eq_ok] at hall
      have hnil : last = [] := by
        cases hending : (pages.run tail.page bytes).ending with
        | clean =>
          rw [hending] at hlast
          cases hlast
          rfl
        | more =>
          rw [hending] at hlast
          simp only [PageScanner.endError, Tail.completeRecords, if_true] at hlast
          cases hlast
          rfl
        | bad e =>
          rw [hending] at hlast
          simp only [PageScanner.endError, Tail.completeRecords] at hlast
          split at hlast
          · cases hlast
            rfl
          · cases hlast
      rw [← hall, hnil, List.append_nil]
      rfl
    rw [hcomplete] at hrun
    simp only at hrun
    rw [exec_bind] at hrun
    cases hfirst : (Tail.admitRecords d records delta).exec tail with
    | mk r tail₁ =>
      obtain ⟨hsame, hadmitted⟩ := admitRecords_shows hshows hfirst
      rw [hrecords] at hadmitted
      have hslice : located tail.segment (unitRecords (pages.run tail.page bytes).units)
          <+: restOf d tail := by
        rw [hrest]
        exact List.prefix_append _ _
      simp only [hfirst] at hrun
      cases r with
      | error e =>
        cases hrun
        refine ⟨?_, fun outcome hok => (by cases hok)⟩
        obtain ⟨more, hmore, hshown⟩ := hadmitted
        rw [hsame]
        rcases shows_more hextra (hmore.trans hslice) hshown with ⟨-, hview⟩ | ⟨-, hview⟩
        · exact ⟨h.reached, h.observed, units, more, hboundary, hmore.trans hslice, hview⟩
        · exact ⟨h.reached, h.observed, units, extra, hboundary, hextra, hview⟩
      | ok delta₁ =>
        simp only at hrun
        rw [exec_bind_of_ok (exec_modify _ _), exec_pure, PageScanner.items_resume] at hrun
        cases hrun
        unfold Shown at hadmitted
        have hview : ∃ more, more <+: located tail.segment
              (unitRecords (pages.run (pages.run tail.page bytes).state
                ((d.bytesAt tail.segment).drop
                  (tail.offset + (pages.run tail.page bytes).consumed))).units)
            ∧ Shows (occurrences d tail.segment ++ located tail.segment (unitRecords
                (units ++ ((pages.run tail.page bytes).shift tail.offset).units)) ++ more)
              tail₁.chain := by
          have hslicelocated : located tail.segment (unitRecords
                (units ++ ((pages.run tail.page bytes).shift tail.offset).units))
              = located tail.segment (unitRecords units)
                ++ located tail.segment (unitRecords (pages.run tail.page bytes).units) := by
            rw [unitRecords_append, located_append, located_shifted]
          rw [hslicelocated, ← List.append_assoc]
          rcases shows_more hextra hslice hadmitted with ⟨-, hview⟩ | ⟨hlong, hview⟩
          · exact ⟨[], List.nil_prefix, by rwa [List.append_nil]⟩
          · obtain ⟨more, rfl⟩ := hlong
            rw [hrest, List.prefix_append_right_inj] at hextra
            exact ⟨more, hextra, by rwa [List.append_assoc]⟩
        obtain ⟨more, hmore, hview⟩ := hview
        refine ⟨?_, ?_⟩
        · rw [hsame]
          exact ⟨h.reached, h.observed, _, more, hnext, hmore, hview⟩
        · intro outcome _
          rw [hsame]
          rfl

/-- A look at the frontier segment moves the frontier over the complete units of one slice. -/
lemma Reads.admitFrontier {d : Directory} {tail tail' : Tail Corpus} (h : Reads d tail)
    {file : SegmentFile} (hfile : d.segments[tail.segment]? = some file) {delta : ChainDelta Op}
    {result : Except IoError (ChainDelta Op)}
    (hrun : (Tail.admitFrontier d (FileStamp.read file) (tail.readFrontier d) delta).exec tail
      = (result, tail')) :
    Reads d tail' ∧ ∀ delta', result = .ok delta' → tail'.segment = tail.segment
      ∧ tail'.offset = tail.offset + (pages.run tail.page (tail.readFrontier d)).consumed
      ∧ tail'.page = (pages.run tail.page (tail.readFrontier d)).state := by
  have hpart : tail.readFrontier d <+: (d.bytesAt tail.segment).drop tail.offset := by
    unfold Tail.readFrontier
    rw [hfile, Directory.bytesAt_of_some hfile]
    exact List.take_prefix _ _
  unfold Tail.admitFrontier at hrun
  simp only at hrun
  rw [exec_bind_of_ok (exec_get tail), exec_bind] at hrun
  cases hscan : (Tail.scan d (tail.readFrontier d)
      { delta with work := { delta.work with
        bytesRead := delta.work.bytesRead + (tail.readFrontier d).length } }).exec tail with
  | mk r tail₁ =>
    obtain ⟨hreads, hmoved⟩ := h.scan hpart hscan
    rw [hscan] at hrun
    cases r with
    | error e =>
      cases hrun
      exact ⟨hreads, fun delta' hok => (by cases hok)⟩
    | ok outcome =>
      simp only at hrun
      rw [exec_bind_of_ok (exec_modify _ _), exec_pure] at hrun
      cases hrun
      have hsame := hmoved outcome rfl
      have hsegment : tail₁.segment = tail.segment := by rw [hsame]
      have hoffset : tail₁.offset
          = tail.offset + (pages.run tail.page (tail.readFrontier d)).consumed := by rw [hsame]
      have hpage : tail₁.page = (pages.run tail.page (tail.readFrontier d)).state := by rw [hsame]
      refine ⟨⟨hreads.reached, ?_, ?_⟩, fun delta' _ => ⟨hsegment, hoffset, hpage⟩⟩
      · intro stamp hstamp
        cases hstamp
        exact ⟨file, by rw [← hfile, ← hsegment], FileStamp.saw_read file⟩
      · obtain ⟨units, extra, hboundary, hextra, hshows⟩ := hreads.held
        refine ⟨units, extra, hboundary, hextra, ?_⟩
        -- a corpus for replication does not record incomplete tails
        show Shows _ (if _ then tail₁.chain else tail₁.chain)
        rw [ite_self]
        exact hshows

/-- The corpus shows every record of the first `k` segments. -/
def Complete (d : Directory) (k : ℕ) (tail : Tail Corpus) : Prop :=
  Shows (occurrences d k) tail.chain

/-- Where no complete unit is left, the frontier segment is shown as a whole. -/
lemma Reads.complete_of_idle {d : Directory} {tail : Tail Corpus} (h : Reads d tail)
    (hidle : (pages.run tail.page ((d.bytesAt tail.segment).drop tail.offset)).consumed = 0) :
    Complete d (tail.segment + 1) tail := by
  obtain ⟨units, extra, hboundary, hextra, hshows⟩ := h.held
  have hunits := (of_consumed_eq_zero hidle).1
  have hnone : restOf d tail = [] := by
    rw [restOf, hunits]
    rfl
  rw [hnone, List.prefix_nil] at hextra
  subst hextra
  have hall := located_split hboundary tail.segment
  rw [hunits] at hall
  unfold Complete occurrences
  rw [hall]
  simpa [located, unitRecords, PageScanner.unitItems, recordRefs] using hshows

/-- A tail whose segment is not there reads an empty directory. -/
lemma Reads.complete_of_none {d : Directory} {tail : Tail Corpus} (h : Reads d tail) {k : ℕ}
    (hd : d.Readable k) (hnone : d.segments[tail.segment]? = none) : Complete d k tail := by
  have hsegment : tail.segment = 0 := by
    by_contra hne
    exact h.reached (Nat.pos_of_ne_zero hne) hnone
  have hk : k = 0 := by
    by_contra hne
    have hzero := (hd.dense 0).mpr (Nat.pos_of_ne_zero hne)
    rw [hsegment] at hnone
    rw [hnone] at hzero
    cases hzero
  have hbytes : d.bytesAt tail.segment = [] := Directory.bytesAt_of_none hnone
  have hidle : (pages.run tail.page ((d.bytesAt tail.segment).drop tail.offset)).consumed = 0 := by
    rw [hbytes, List.drop_nil, run_nil]
  have hwhole := h.complete_of_idle hidle
  unfold Complete occurrences at hwhole
  rw [hbytes, run_nil, hsegment] at hwhole
  rw [hk]
  simpa [Complete, occurrences, located, unitRecords, PageScanner.unitItems, recordRefs] using hwhole

/-- How far a frontier has come. -/
def place (d : Directory) (tail : Tail Corpus) : ℕ := Tail.span d tail.segment + tail.offset

/-- A poll keeps reading; when it succeeds, it has moved on or shows everything. -/
lemma Reads.pollLoop {d : Directory} {k : ℕ} (hd : d.Readable k) (fuel : ℕ)
    {delta : ChainDelta Op} {tail tail' : Tail Corpus} (h : Reads d tail)
    (hfuel : k < tail.segment + fuel + 1) (hpos : 0 < fuel)
    {result : Except IoError (ChainDelta Op)}
    (hrun : (Tail.pollLoop d fuel delta).exec tail = (result, tail')) :
    Reads d tail' ∧ ∀ delta', result = .ok delta' →
      place d tail < place d tail'
        ∨ tail'.segment = tail.segment ∧ tail'.offset = tail.offset ∧ Complete d k tail' := by
  induction fuel generalizing tail delta with
  | zero => omega
  | succ fuel ih =>
    unfold Tail.pollLoop at hrun
    rw [exec_bind_of_ok (exec_get tail), exec_bind, exec_lift, h.openFrontier] at hrun
    cases hfile : d.segments[tail.segment]? with
    | none =>
      rw [hfile] at hrun
      cases hrun
      exact ⟨h, fun delta' _ => .inr ⟨rfl, rfl, h.complete_of_none hd hfile⟩⟩
    | some file =>
      rw [hfile] at hrun
      simp only [Option.map_some] at hrun
      rw [exec_bind] at hrun
      cases hfirst : (Tail.admitFrontier d (FileStamp.read file) (tail.readFrontier d)
          delta).exec tail with
      | mk r seen =>
        obtain ⟨hseen, hmoved⟩ := h.admitFrontier hfile hfirst
        rw [hfirst] at hrun
        cases r with
        | error e =>
          cases hrun
          exact ⟨hseen, fun delta' hok => (by cases hok)⟩
        | ok delta₁ =>
          obtain ⟨hsegment, hoffset, hpage⟩ := hmoved delta₁ rfl
          simp only at hrun
          rw [exec_bind_of_ok (exec_get seen)] at hrun
          by_cases hforward : tail.offset < seen.offset
          · rw [if_pos hforward] at hrun
            cases hrun
            refine ⟨hseen, fun delta' _ => .inl ?_⟩
            unfold place
            rw [hsegment]
            omega
          · -- nothing was consumed, neither in the slice nor in the rest of the segment
            have hzero : (pages.run tail.page (tail.readFrontier d)).consumed = 0 := by omega
            have hstay : seen.offset = tail.offset := by omega
            have hidle : (pages.run seen.page ((d.bytesAt seen.segment).drop
                seen.offset)).consumed = 0 := by
              have hslice : tail.readFrontier d
                  = ((d.bytesAt tail.segment).drop tail.offset).take maxFrameBytes := by
                unfold Tail.readFrontier
                rw [hfile, Directory.bytesAt_of_some hfile]
              rw [hpage, (of_consumed_eq_zero hzero).2, hsegment, hstay,
                run_take_of_idle pages_local (by decide) (by rw [← hslice]; exact hzero),
                ← hslice, hzero]
            have hcomplete := hseen.complete_of_idle hidle
            have hlt : tail.segment < k := by
              rw [← hd.dense, hfile]
              rfl
            rw [if_neg hforward, exec_bind, exec_lift] at hrun
            unfold Tail.nextSegment at hrun
            rw [hsegment] at hrun hcomplete
            by_cases hlimit : tail.segment + 1 < sequenceLimit
            · rw [if_pos hlimit] at hrun
              simp only at hrun
              by_cases hnext : d.segments[tail.segment + 1]? = none
              · rw [if_pos hnext] at hrun
                cases hrun
                have hlast : tail.segment + 1 = k := by
                  have hnot : ¬ tail.segment + 1 < k := by
                    rw [← hd.dense, hnext]
                    simp
                  omega
                rw [hlast] at hcomplete
                exact ⟨hseen, fun delta' _ => .inr ⟨hsegment, hstay, hcomplete⟩⟩
              · rw [if_neg hnext, exec_bind_of_ok (exec_set _ seen)] at hrun
                have hadvance : Reads d (seen.advance (tail.segment + 1)) := by
                  refine ⟨fun _ => hnext, fun stamp hstamp => (by cases hstamp), [], [],
                    Boundary.zero pages none _, List.nil_prefix, ?_⟩
                  simpa [located, unitRecords, PageScanner.unitItems, recordRefs, Complete,
                    Tail.advance] using hcomplete
                have hmore : tail.segment + 1 < k := by
                  rw [← hd.dense]
                  exact Option.isSome_iff_ne_none.mpr hnext
                obtain ⟨hreads, houtcome⟩ := ih hadvance (by
                  show k < tail.segment + 1 + fuel + 1
                  omega) (by omega) hrun
                refine ⟨hreads, ?_⟩
                intro delta' hok
                have hle : tail.offset ≤ (d.bytesAt tail.segment).length := by
                  obtain ⟨units, extra, hboundary, -, -⟩ := h.held
                  exact hboundary.1
                have hstep : place d tail < place d (seen.advance (tail.segment + 1)) := by
                  show Tail.span d tail.segment + tail.offset
                    < Tail.span d tail.segment + (d.bytesAt tail.segment).length + 1 + 0
                  omega
                rcases houtcome delta' hok with hplace | ⟨hseg, hoff, -⟩
                · exact .inl (hstep.trans hplace)
                · left
                  have hsame : place d tail' = place d (seen.advance (tail.segment + 1)) := by
                    unfold place
                    rw [hseg, hoff]
                  omega
            · rw [if_neg hlimit] at hrun
              cases hrun
              exact ⟨hseen, fun delta' hok => (by cases hok)⟩

/-- The frontier stays within the directory. -/
lemma Reads.place_le {d : Directory} {k : ℕ} (hd : d.Readable k) {tail : Tail Corpus}
    (h : Reads d tail) : place d tail ≤ Tail.span d k := by
  obtain ⟨units, extra, hboundary, -, -⟩ := h.held
  have hle := hboundary.1
  unfold place
  by_cases hnone : d.segments[tail.segment]? = none
  · have hsegment : tail.segment = 0 := by
      by_contra hne
      exact h.reached (Nat.pos_of_ne_zero hne) hnone
    rw [Directory.bytesAt_of_none hnone, List.length_nil] at hle
    rw [hsegment, Tail.span]
    omega
  · have hlt : tail.segment < k := by
      rw [← hd.dense]
      exact Option.isSome_iff_ne_none.mpr hnone
    have hspan := Tail.span_mono d (show tail.segment + 1 ≤ k from hlt)
    rw [Tail.span] at hspan
    omega

/-- A successful drain shows everything. -/
lemma Reads.drainLoop {d : Directory} {k : ℕ} (hd : d.Readable k) (fuel : ℕ)
    {delta : ChainDelta Op} {tail tail' : Tail Corpus} (h : Reads d tail)
    (hfuel : Tail.span d k < place d tail + fuel) {result : Except IoError (ChainDelta Op)}
    (hrun : (Tail.drainLoop d fuel delta).exec tail = (result, tail')) :
    Reads d tail' ∧ ∀ delta', result = .ok delta' → Complete d k tail' := by
  induction fuel generalizing tail delta with
  | zero =>
    have hle := h.place_le hd
    omega
  | succ fuel ih =>
    unfold Tail.drainLoop at hrun
    rw [exec_bind_of_ok (exec_get tail), exec_bind] at hrun
    cases hpoll : (Tail.poll d : Fallible IoError (Tail Corpus) (ChainDelta Op)).exec tail with
    | mk r tail₁ =>
      have hsize := (Tail.size_add_totalBytes hd.dense).1
      obtain ⟨hreads, houtcome⟩ := Reads.pollLoop hd (d.segments.size + 1) h
        (by rw [hsize]; omega) (by omega) hpoll
      rw [hpoll] at hrun
      cases r with
      | error e =>
        cases hrun
        exact ⟨hreads, fun delta' hok => (by cases hok)⟩
      | ok delta₁ =>
        simp only at hrun
        rw [exec_bind_of_ok (exec_get tail₁)] at hrun
        rcases houtcome delta₁ rfl with hplace | ⟨hsegment, hoffset, hcomplete⟩
        · have hne : ¬ ((tail.segment, tail.offset) = (tail₁.segment, tail₁.offset)) := by
            intro heq
            obtain ⟨hseg, hoff⟩ := Prod.mk.inj heq
            unfold place at hplace
            rw [hseg, hoff] at hplace
            exact lt_irrefl _ hplace
          rw [if_neg hne] at hrun
          exact ih hreads (by omega) hrun
        · rw [if_pos (by rw [hsegment, hoffset])] at hrun
          cases hrun
          exact ⟨hreads, fun delta' _ => hcomplete⟩

lemma Reads.drain {d : Directory} {k : ℕ} (hd : d.Readable k) {tail tail' : Tail Corpus}
    (h : Reads d tail) {result : Except IoError (ChainDelta Op)}
    (hrun : (Tail.drain d).exec tail = (result, tail')) :
    Reads d tail' ∧ ∀ delta', result = .ok delta' → Complete d k tail' := by
  apply Reads.drainLoop hd _ h _ hrun
  have hspan := (Tail.size_add_totalBytes hd.dense).2
  omega

/-! ## The evidence -/

namespace Evidence

/-- A loaded reader reads the directory. -/
def Follows (d : Directory) (evidence : Evidence) : Prop :=
  evidence.loaded = true → Reads d evidence.tail

lemma follows_new (d : Directory) (root : String) : Follows d (new root) :=
  fun h => (by cases h)

lemma Follows.grows {d d' : Directory} {evidence : Evidence} (h : Follows d evidence)
    (hgrows : d.Grows d') : Follows d' evidence :=
  fun hloaded => (h hloaded).grows hgrows

/-- The evidence shows every record of the chain. -/
def Fresh (d : Directory) (k : ℕ) (evidence : Evidence) : Prop :=
  evidence.loaded = true ∧ Reads d evidence.tail ∧ Complete d k evidence.tail

lemma wp_refresh {d : Directory} {k : ℕ} (hd : d.Readable k) {root : String}
    {evidence : Evidence} (h : Follows d evidence) :
    wp (refresh root d) (fun _ e => Fresh d k e) (fun _ e => Follows d e) evidence := by
  unfold refresh
  rw [wp_bind, wp_get]
  by_cases hloaded : evidence.loaded = true
  · rw [if_pos hloaded]
    simp only [wp_bind, wp_lift]
    refine ⟨?_, fun e _ => h⟩
    intro _ _
    rw [wp_zoom]
    apply wp_of_exec
    · intro delta tail hdrain
      obtain ⟨hreads, hcomplete⟩ := (h hloaded).drain hd hdrain
      exact ⟨hloaded, hreads, hcomplete delta rfl⟩
    · intro e tail hdrain
      obtain ⟨hreads, -⟩ := (h hloaded).drain hd hdrain
      exact fun _ => hreads
  · rw [if_neg hloaded]
    simp only [wp_bind, wp_lift, wp_set]
    refine ⟨?_, fun e _ => h⟩
    intro tail hopen
    unfold openTail at hopen
    obtain ⟨sequences, -, hopen⟩ := bind_eq_ok.mp hopen
    obtain ⟨delta, hdelta, hopen⟩ := bind_eq_ok.mp hopen
    rw [pure_eq_ok] at hopen
    subst hopen
    obtain ⟨hreads, hcomplete⟩ := (reads_empty d root).drain hd
      (Prod.eta _).symm
    exact ⟨rfl, hreads, hcomplete delta hdelta⟩

/-- A read returns the first occurrences of all records in the chain. -/
lemma wp_read {d : Directory} {k : ℕ} (hd : d.Readable k) {root : String}
    {evidence : Evidence} (h : Follows d evidence) :
    wp (read root d)
      (fun corpus e => Follows d e ∧ Shows (occurrences d k) corpus)
      (fun _ e => Follows d e) evidence := by
  unfold read
  rw [wp_bind]
  apply wp_mono (wp_refresh hd h)
  · intro _ e hfresh
    simp only [wp_bind, wp_get, wp_pure]
    exact ⟨fun _ => hfresh.2.1, hfresh.2.2⟩
  · intro _ e hfollows
    exact hfollows

lemma wp_warm {d : Directory} {k : ℕ} (hd : d.Readable k) {root : String}
    {evidence : Evidence} (h : Follows d evidence) :
    wp (warm root d) (fun _ e => Follows d e) (fun _ e => Follows d e) evidence := by
  unfold warm
  rw [wp_bind, wp_get, wp_ite]
  refine ⟨?_, fun _ => h⟩
  intro _
  apply wp_mono (wp_refresh hd h)
  · intro _ e hfresh _
    exact hfresh.2.1
  · intro _ e hfollows
    exact hfollows

end Evidence

end EditChain.Sync
