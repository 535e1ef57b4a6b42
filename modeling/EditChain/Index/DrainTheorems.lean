import EditChain.Index.Chain
import EditChain.Index.FrontierTheorems
import EditChain.Store.TailTheorems

/-!
# Drained frontiers

The indexed chain behind a drained frontier depends on the directory only, not on how often the
frontier was drained before while the directory grew.
-/

namespace EditChain.Store

open Core Fallible UnitReader
open Std (ExtTreeMap)

variable {Op : Type} [Schema Op] [Checksum]

namespace IndexedChain

variable {d d' : Directory}

/-! ## One admission -/

omit [Schema Op] in
lemma holds_grows (h : d.Grows d') {encoded : Bytes} {locations : List OpRecordLocation}
    {known : Bool} (hholds : holds d encoded locations = .ok known) :
    holds d' encoded locations = .ok known := by
  induction locations with
  | nil => exact hholds
  | cons location rest ih =>
    unfold holds at hholds ⊢
    split at hholds
    · next hlength =>
      rw [if_pos hlength]
      obtain ⟨bytes, hbytes, hholds⟩ := bind_eq_ok.mp hholds
      refine bind_eq_ok.mpr ⟨bytes, readEncodedAt_grows h hbytes, ?_⟩
      by_cases hsame : bytes = encoded
      · rw [if_pos hsame] at hholds ⊢
        exact hholds
      · rw [if_neg hsame] at hholds ⊢
        exact ih hholds
    · next hlength =>
      rw [if_neg hlength]
      exact ih hholds

omit [Schema Op] in
/-- A classification is not disturbed by growth. -/
lemma classify_grows (h : d.Grows d') {chain : IndexedChain Op} {id : OpId} {encoded : Bytes}
    {admission : Admission} (hclassify : chain.classify d id encoded = .ok admission) :
    chain.classify d' id encoded = .ok admission := by
  unfold classify at hclassify ⊢
  split at hclassify
  · exact hclassify
  · obtain ⟨known, hknown, hclassify⟩ := bind_eq_ok.mp hclassify
    exact bind_eq_ok.mpr ⟨known, holds_grows h hknown, hclassify⟩

lemma admitRecord_grows (h : d.Grows d') {chain chain' : IndexedChain Op} {op : Op}
    {encoded : Bytes} {location : OpRecordLocation} {admission : Admission}
    (hexec : (admitRecord d op encoded location).exec chain = (.ok admission, chain')) :
    (admitRecord d' op encoded location).exec chain = (.ok admission, chain') := by
  unfold admitRecord at hexec ⊢
  rw [exec_bind_of_ok (exec_get chain)] at hexec ⊢
  dsimp only at hexec ⊢
  obtain ⟨found, same, hclassify, hexec⟩ := exec_bind_eq_ok.mp hexec
  obtain ⟨hverdict, rfl⟩ := Prod.mk.inj hclassify
  have hlater : chain.classify d' (Schema.id op) encoded = .ok found := classify_grows h hverdict
  rw [exec_bind, exec_lift, hlater]
  exact hexec

/-- A chain with another count of incomplete tails. -/
def withTails (chain : IndexedChain Op) (n : ℕ) : IndexedChain Op :=
  { chain with stats := { chain.stats with incompleteTails := n } }

/-- The count of incomplete tails plays no part in an admission. -/
lemma admitRecord_withTails {chain chain' : IndexedChain Op} {op : Op} {encoded : Bytes}
    {location : OpRecordLocation} {admission : Admission}
    (hexec : (admitRecord d op encoded location).exec chain = (.ok admission, chain')) (n : ℕ) :
    (admitRecord d op encoded location).exec (chain.withTails n)
        = (.ok admission, chain'.withTails n)
      ∧ chain'.stats.incompleteTails = chain.stats.incompleteTails := by
  unfold admitRecord at hexec ⊢
  rw [exec_bind_of_ok (exec_get _)] at hexec ⊢
  dsimp only at hexec ⊢
  obtain ⟨found, same, hclassify, hexec⟩ := exec_bind_eq_ok.mp hexec
  obtain ⟨hverdict, rfl⟩ := Prod.mk.inj hclassify
  have hsame : (chain.withTails n).classify d (Schema.id op) encoded = .ok found := hverdict
  rw [exec_bind, exec_lift, hsame]
  cases found with
  | accepted =>
    cases hexec
    exact ⟨rfl, rfl⟩
  | duplicate =>
    cases hexec
    exact ⟨rfl, rfl⟩
  | conflict =>
    dsimp only at hexec ⊢
    rw [show (chain.withTails n).entries = chain.entries from rfl]
    split at hexec
    · cases hexec
    · cases hexec
      exact ⟨rfl, rfl⟩

/-! ## Several records -/

/-- The records of a segment are admitted in order, none of them with an error. -/
inductive Absorbs (d : Directory) (segment : ℕ) :
    IndexedChain Op → List RecordRef → IndexedChain Op → Prop
  | nil (chain : IndexedChain Op) : Absorbs d segment chain [] chain
  | undecodable {chain after : IndexedChain Op} {record : RecordRef} {rest : List RecordRef}
      {error} :
      @Schema.decodeOp Op _ record.data = .error error →
      Absorbs d segment (TailCorpus.recordUndecodable chain) rest after →
      Absorbs d segment chain (record :: rest) after
  | admitted {chain middle after : IndexedChain Op} {record : RecordRef} {rest : List RecordRef}
      {op : Op} {admission : Admission} : Schema.decodeOp record.data = .ok op →
      (admitRecord d op record.data
        ⟨segment, record.dataOffset, record.data.length, record.checksum⟩).exec chain
          = (.ok admission, middle) →
      Absorbs d segment middle rest after → Absorbs d segment chain (record :: rest) after

variable {segment : ℕ} {chain middle after after' : IndexedChain Op}
  {records more : List RecordRef}

lemma Absorbs.append (h : Absorbs d segment chain records middle)
    (hmore : Absorbs d segment middle more after) :
    Absorbs d segment chain (records ++ more) after := by
  induction h with
  | nil => exact hmore
  | undecodable herror _ ih => exact .undecodable herror (ih hmore)
  | admitted hop hexec _ ih => exact .admitted hop hexec (ih hmore)

lemma Absorbs.grows (hgrows : d.Grows d') (h : Absorbs d segment chain records after) :
    Absorbs d' segment chain records after := by
  induction h with
  | nil chain => exact .nil chain
  | undecodable herror _ ih => exact .undecodable herror ih
  | admitted hop hexec _ ih => exact .admitted hop (admitRecord_grows hgrows hexec) ih

/-- What is absorbed depends on the records only. -/
lemma Absorbs.functional (h : Absorbs d segment chain records after)
    (h' : Absorbs d segment chain records after') : after = after' := by
  induction h with
  | nil =>
    cases h'
    rfl
  | undecodable herror _ ih =>
    cases h' with
    | undecodable _ hrest => exact ih hrest
    | admitted hop =>
      rw [herror] at hop
      cases hop
  | admitted hop hexec _ ih =>
    cases h' with
    | undecodable herror =>
      rw [hop] at herror
      cases herror
    | admitted hop' hexec' hrest =>
      rw [hop] at hop'
      cases hop'
      rw [hexec] at hexec'
      cases hexec'
      exact ih hrest

lemma Absorbs.withTails (h : Absorbs d segment chain records after) (n : ℕ) :
    Absorbs d segment (chain.withTails n) records (after.withTails n)
      ∧ after.stats.incompleteTails = chain.stats.incompleteTails := by
  induction h with
  | nil => exact ⟨.nil _, rfl⟩
  | undecodable herror _ ih => exact ⟨.undecodable herror ih.1, ih.2⟩
  | admitted hop hexec _ ih =>
    obtain ⟨hexec', htails⟩ := admitRecord_withTails hexec n
    exact ⟨.admitted hop hexec' ih.1, ih.2.trans htails⟩

/-- The count of incomplete tails can be set aside. -/
lemma Absorbs.of_withTails {n : ℕ} (h : Absorbs d segment (chain.withTails n) records after) :
    ∃ plain, Absorbs d segment chain records plain ∧ after = plain.withTails n := by
  obtain ⟨hplain, htails⟩ := h.withTails chain.stats.incompleteTails
  refine ⟨_, hplain, ?_⟩
  have hn : after.stats.incompleteTails = n := htails
  rw [← hn]
  rfl

/-- The first segments of a directory, one after the other. -/
inductive Reads (d : Directory) : ℕ → IndexedChain Op → Prop
  | zero : Reads d 0 {}
  | succ {n : ℕ} {chain after : IndexedChain Op} : Reads d n chain →
      Absorbs d n chain (unitRecords (pages.run none (d.bytesAt n)).units) after →
      Reads d (n + 1) after

lemma Reads.functional {n : ℕ} (h : Reads d n after) (h' : Reads d n after') : after = after' := by
  induction h generalizing after' with
  | zero =>
    cases h'
    rfl
  | succ _ habsorbs ih =>
    cases h' with
    | succ hbefore habsorbs' =>
      cases ih hbefore
      exact habsorbs.functional habsorbs'

/-- Segments before an existing one do not change. -/
lemma Reads.grows {n m : ℕ} (hgrows : d.Grows d') (h : Reads d n chain) (hle : n ≤ m)
    (hm : 0 < m → d.segments[m]? ≠ none) : Reads d' n chain := by
  induction h with
  | zero => exact .zero
  | @succ n before after _ habsorbs ih =>
    refine .succ (ih (by omega)) ?_
    rw [hgrows.bytesAt_eq (show n < m by omega) (hm (by omega))]
    exact habsorbs.grows hgrows

end IndexedChain

/-! ## Slices -/

namespace Tail

open Directory IndexedChain

variable {d d' : Directory} {tail tail' : Tail (IndexedChain Op)} {delta delta' : ChainDelta Op}

lemma admitRecords_absorbs {records : List RecordRef}
    (hexec : (admitRecords d records delta).exec tail = (.ok delta', tail')) :
    ∃ chain, tail' = { tail with chain := chain }
      ∧ Absorbs d tail.segment tail.chain (records.map (·.shift tail.offset)) chain := by
  induction records generalizing delta tail with
  | nil =>
    cases hexec
    exact ⟨_, rfl, .nil _⟩
  | cons record records ih =>
    rw [admitRecords] at hexec
    obtain ⟨delta₁, tail₁, hone, hexec⟩ := exec_bind_eq_ok.mp hexec
    unfold admitOne at hone
    split at hone
    · next error herror =>
      cases hone
      obtain ⟨chain, htail, hrest⟩ := ih hexec
      exact ⟨chain, htail, .undecodable herror hrest⟩
    · next op hop =>
      rw [exec_bind_of_ok (exec_get tail)] at hone
      dsimp only at hone
      obtain ⟨admission, middle, hadmitted, hone⟩ := exec_bind_eq_ok.mp hone
      cases hone
      unfold onChain at hadmitted
      rw [exec_zoom] at hadmitted
      obtain ⟨hadmission, rfl⟩ := Prod.mk.inj hadmitted
      obtain ⟨chain, htail, hrest⟩ := ih hexec
      exact ⟨chain, htail, .admitted hop (Prod.ext hadmission rfl) hrest⟩

/-- The complete records of a slice are those of its units. -/
lemma completeRecords_eq {bytes : Bytes} {page : Option UInt32} {records : List RecordRef}
    (h : completeRecords (PageScanner.resume bytes page).items.1 = .ok records) :
    records = unitRecords (pages.run page bytes).units := by
  rw [congrArg Prod.fst (PageScanner.items_resume bytes page), completeRecords_append] at h
  obtain ⟨rest, hrest, h⟩ := bind_eq_ok.mp h
  cases h
  have hnone : rest = [] := by
    cases hending : (pages.run page bytes).ending with
    | clean =>
      rw [hending] at hrest
      cases hrest
      rfl
    | more =>
      rw [hending] at hrest
      simp only [PageScanner.endError, completeRecords] at hrest
      cases hrest
      rfl
    | bad e =>
      rw [hending] at hrest
      simp only [PageScanner.endError, completeRecords] at hrest
      split at hrest
      · cases hrest
        rfl
      · cases hrest
  rw [hnone, List.append_nil]
  rfl

lemma scan_absorbs {bytes : Bytes} {partly : Bool}
    (hexec : (scan d bytes delta).exec tail = (.ok (partly, delta'), tail')) :
    ∃ chain, Absorbs d tail.segment tail.chain
        ((unitRecords (pages.run tail.page bytes).units).map (·.shift tail.offset)) chain
      ∧ partly = decide ((pages.run tail.page bytes).consumed < bytes.length)
      ∧ tail' = { tail with
        chain := chain
        offset := tail.offset + (pages.run tail.page bytes).consumed
        page := (pages.run tail.page bytes).state } := by
  unfold scan at hexec
  rw [exec_bind_of_ok (exec_get tail)] at hexec
  dsimp only at hexec
  obtain ⟨records, same, hrecords, hexec⟩ := exec_bind_eq_ok.mp hexec
  obtain ⟨hcomplete, rfl⟩ := Prod.mk.inj hrecords
  obtain ⟨delta₁, tail₁, hadmitted, hexec⟩ := exec_bind_eq_ok.mp hexec
  rw [completeRecords_eq hcomplete] at hadmitted
  obtain ⟨chain, rfl, habsorbs⟩ := admitRecords_absorbs hadmitted
  refine ⟨chain, habsorbs, ?_⟩
  rw [PageScanner.items_resume] at hexec
  cases hexec
  exact ⟨rfl, rfl⟩

/-! ## Frontiers -/

/-- The frontier of an indexed tail, with another corpus. -/
def shadow (tail : Tail (IndexedChain Op)) (chain : CanonicalChain Op) :
    Tail (CanonicalChain Op) where
  root := tail.root
  chain := chain
  segment := tail.segment
  offset := tail.offset
  page := tail.page
  observed := tail.observed
  sealed := tail.sealed
  incomplete := tail.incomplete

/-- An indexed tail that holds what a directory has up to its frontier. -/
structure Reaches (d : Directory) (tail : Tail (IndexedChain Op)) : Prop where
  frontier : ∃ chain tails, Follows d (tail.shadow chain) tails
  unfinished : tail.incomplete = true → tail.offset < (d.bytesAt tail.segment).length
  corpus : ∃ units before after,
    pages.Boundary none (d.bytesAt tail.segment) tail.offset units tail.page
      ∧ Reads d tail.segment before ∧ Absorbs d tail.segment before (unitRecords units) after
      ∧ tail.chain = after.withTails
        (d.countBeyond short tail.segment + if tail.incomplete then 1 else 0)

lemma reaches_empty (d : Directory) (root : String) :
    Reaches d (Tail.empty root : Tail (IndexedChain Op)) :=
  ⟨⟨_, 0, follows_empty d root⟩, nofun, [], {}, {}, Boundary.zero pages none _, .zero, .nil _, rfl⟩

lemma Reaches.grows (h : Reaches d tail) (hgrows : d.Grows d') : Reaches d' tail := by
  obtain ⟨⟨chain, tails, hfollows⟩, hunfinished, units, before, after, hboundary, hreads, habsorbs,
    hchain⟩ := h
  obtain ⟨y, hy⟩ := hgrows.bytesAt tail.segment
  have hreached : 0 < tail.segment → d.segments[tail.segment]? ≠ none := hfollows.reached
  refine ⟨⟨chain, tails, hfollows.grows hgrows⟩, fun hincomplete => ?_, units, before, after, ?_,
    hreads.grows hgrows le_rfl hfollows.reached, habsorbs.grows hgrows, ?_⟩
  · have hlt := hunfinished hincomplete
    rw [← hy, List.length_append]
    omega
  · rw [← hy]
    exact hboundary.append y
  · rw [countBeyond_of_grows hgrows hreached]
    exact hchain

/-- Everything in the first `k` segments has been read. -/
def Finished (d : Directory) (k : ℕ) (tail : Tail (IndexedChain Op)) : Prop :=
  ∃ after, Reads d k after ∧ tail.chain = after.withTails (d.countBeyond short k)

/-- Two finished tails hold the same chain. -/
lemma Finished.chain_eq {k : ℕ} (h : Finished d k tail) (h' : Finished d k tail') :
    tail.chain = tail'.chain := by
  obtain ⟨after, hreads, hchain⟩ := h
  obtain ⟨after', hreads', hchain'⟩ := h'
  rw [hchain, hchain', hreads.functional hreads']

/-- No complete unit lies beyond the frontier, and a cut one is noted. -/
structure Exhausted (d : Directory) (tail : Tail (IndexedChain Op)) : Prop where
  idle : (pages.run tail.page ((d.bytesAt tail.segment).drop tail.offset)).consumed = 0
  flag : tail.incomplete = short (bytesBeyond (d.bytesAt tail.segment))

/-- A segment in which nothing is left has been read as a whole. -/
lemma Reaches.finished (h : Reaches d tail) (hexhausted : Exhausted d tail) :
    Finished d (tail.segment + 1) tail := by
  obtain ⟨-, -, units, before, after, hboundary, hreads, habsorbs, hchain⟩ := h
  have hunits : (pages.run none (d.bytesAt tail.segment)).units = units := by
    have hrest := (of_consumed_eq_zero hexhausted.idle).1
    rw [hboundary.run_eq]
    simp [Scan.prepend, Scan.shift, hrest]
  refine ⟨after, .succ hreads (by rw [hunits]; exact habsorbs), ?_⟩
  rw [hchain, hexhausted.flag]
  rfl

/-- Whether a slice that was scanned ends with a cut unit. -/
def cutsAt (tail : Tail (IndexedChain Op)) (metadata : FileStamp) (bytes : Bytes) : Bool :=
  decide ((pages.run tail.page bytes).consumed < bytes.length)
    && decide (metadata.length ≤ tail.offset + bytes.length)

lemma admitFrontier_absorbs {metadata : FileStamp} {bytes : Bytes}
    (hexec : (admitFrontier d metadata bytes delta).exec tail = (.ok delta', tail')) :
    ∃ chain, Absorbs d tail.segment tail.chain
        ((unitRecords (pages.run tail.page bytes).units).map (·.shift tail.offset)) chain
      ∧ tail' = { tail with
        chain := if tail.incomplete ≠ tail.cutsAt metadata bytes then
            TailCorpus.recordTailChange (tail.cutsAt metadata bytes) chain
          else chain
        offset := tail.offset + (pages.run tail.page bytes).consumed
        page := (pages.run tail.page bytes).state
        incomplete := tail.cutsAt metadata bytes
        observed := some metadata } := by
  unfold admitFrontier at hexec
  dsimp only at hexec
  rw [exec_bind_of_ok (exec_get tail)] at hexec
  obtain ⟨⟨partly, delta₁⟩, tail₁, hscan, hexec⟩ := exec_bind_eq_ok.mp hexec
  obtain ⟨chain, hscanned, rfl, rfl⟩ := scan_absorbs hscan
  cases hexec
  exact ⟨chain, hscanned, rfl⟩

/-- The count of incomplete tails follows the flag of the frontier. -/
lemma recordTailChange_withTails (chain : IndexedChain Op) (n : ℕ) (old new : Bool) :
    (if old ≠ new then TailCorpus.recordTailChange new
        (chain.withTails (n + if old then 1 else 0))
      else chain.withTails (n + if old then 1 else 0))
      = chain.withTails (n + if new then 1 else 0) := by
  cases old <;> cases new <;> rfl

/-- One look at the frontier segment. -/
lemma Reaches.visit (h : Reaches d tail) {file : SegmentFile}
    (hfile : d.segments[tail.segment]? = some file)
    (hexec : (admitFrontier d (FileStamp.read file) (tail.readFrontier d) delta).exec tail
      = (.ok delta', tail')) :
    Reaches d tail' ∧ tail'.segment = tail.segment ∧ tail.offset ≤ tail'.offset
      ∧ (tail'.offset = tail.offset → Exhausted d tail')
      ∧ (tail.readFrontier d = [] → tail'.chain = tail.chain) := by
  obtain ⟨⟨shadowed, tails, hfollows⟩, hunfinished, units, before, after, hboundary, hreads,
    habsorbs, hchain⟩ := h
  have hslice : tail.readFrontier d
      = ((d.bytesAt tail.segment).drop tail.offset).take maxFrameBytes := by
    unfold Tail.readFrontier
    rw [hfile, bytesAt_of_some hfile]
  have hpart : tail.readFrontier d <+: (d.bytesAt tail.segment).drop tail.offset := by
    rw [hslice]
    exact List.take_prefix _ _
  have hlength : (tail.readFrontier d).length
      = min maxFrameBytes ((d.bytesAt tail.segment).length - tail.offset) := by
    rw [hslice, List.length_take, List.length_drop]
  obtain ⟨chain, hscanned, rfl⟩ := admitFrontier_absorbs hexec
  obtain ⟨tails', hseen, -, hidle⟩ := hfollows.visit hfile
  rw [hchain] at hscanned
  obtain ⟨plain, hplain, rfl⟩ := hscanned.of_withTails
  refine ⟨⟨⟨_, tails', hseen⟩, fun hincomplete => ?_, _, before, plain,
    hboundary.advance hpart, hreads, ?_, ?_⟩, rfl, Nat.le_add_right _ _, fun hoffset => ?_,
    fun hempty => ?_⟩
  · change tail.cutsAt _ _ = true at hincomplete
    unfold cutsAt at hincomplete
    rw [Bool.and_eq_true, decide_eq_true_eq] at hincomplete
    show tail.offset + (pages.run tail.page (tail.readFrontier d)).consumed < _
    have hlt := hincomplete.1
    show _ < (d.bytesAt tail.segment).length
    omega
  · have hnew : unitRecords ((pages.run tail.page (tail.readFrontier d)).shift tail.offset).units
        = (unitRecords (pages.run tail.page (tail.readFrontier d)).units).map
          (·.shift tail.offset) := unitRecords_shift tail.offset _
    rw [unitRecords_append, hnew]
    exact habsorbs.append hplain
  · exact recordTailChange_withTails plain _ _ _
  · obtain ⟨hnothing, hflag⟩ := hidle hoffset
    exact ⟨hnothing, hflag⟩
  · -- nothing was cut before either, or there would be something to read
    have hwhole : tail.incomplete = false := by
      by_contra hcut
      have hlt := hunfinished (by simpa using hcut)
      have hzero : (tail.readFrontier d).length = 0 := by rw [hempty]; rfl
      have hlimit : 0 < maxFrameBytes := by decide
      omega
    have hflag : tail.cutsAt (FileStamp.read file) (tail.readFrontier d) = false := by
      unfold cutsAt
      rw [hempty]
      simp
    rw [hempty] at hplain
    have hsame : plain = after := by
      have hnil : (unitRecords (pages.run tail.page []).units).map (·.shift tail.offset) = [] := by
        rw [run_nil]
        rfl
      rw [hnil] at hplain
      exact hplain.functional (.nil after)
    dsimp only
    rw [hflag, hwhole, hchain, hwhole, hsame]
    rfl

/-- Leaving a segment in which nothing is left to read. -/
lemma Reaches.advance (h : Reaches d tail) (hexhausted : Exhausted d tail)
    (hnext : d.segments[tail.segment + 1]? ≠ none) :
    Reaches d (tail.advance (tail.segment + 1)) := by
  obtain ⟨after, hreads, hchain⟩ := h.finished hexhausted
  obtain ⟨⟨shadowed, tails, hfollows⟩, -, -⟩ := h
  have hidle : Idle d (tail.shadow shadowed) := hexhausted.idle
  exact ⟨⟨shadowed, tails, hfollows.advance hidle hnext⟩, nofun, [], after, after,
    Boundary.zero pages none _, hreads, .nil _, hchain⟩

/-! ## Polls and drains of a growing directory -/

/-- How far an indexed frontier has come. -/
def reach (d : Directory) (tail : Tail (IndexedChain Op)) : ℕ :=
  span d tail.segment + tail.offset

omit [Schema Op] in
lemma Reaches.offset_le [Schema Op] (h : Reaches d tail) :
    tail.offset ≤ (d.bytesAt tail.segment).length := by
  obtain ⟨-, -, units, before, after, hboundary, -⟩ := h
  exact hboundary.1

/-- A tail whose segment is not there has read an empty directory. -/
lemma Reaches.finished_of_none {k : ℕ} (h : Reaches d tail)
    (hdense : ∀ n : ℕ, d.segments[n]?.isSome ↔ n < k) (hnone : d.segments[tail.segment]? = none) :
    Finished d k tail := by
  obtain ⟨⟨shadowed, tails, hfollows⟩, -, units, before, after, hboundary, hreads, habsorbs,
    hchain⟩ := h
  have hsegment : tail.segment = 0 := by
    by_contra hne
    exact hfollows.reached (Nat.pos_of_ne_zero hne) hnone
  have hk : k = 0 := by
    by_contra hne
    have hzero := (hdense 0).mpr (Nat.pos_of_ne_zero hne)
    rw [hsegment] at hnone
    rw [hnone] at hzero
    cases hzero
  have hobserved : tail.observed = none := by
    by_contra hne
    obtain ⟨stamp, hstamp⟩ := Option.ne_none_iff_exists'.mp hne
    obtain ⟨file, hfile, -⟩ := hfollows.observed stamp hstamp
    change d.segments[tail.segment]? = some file at hfile
    rw [hnone] at hfile
    cases hfile
  have hincomplete : tail.incomplete = false := hfollows.unread hobserved
  have hunits : units = [] := by
    have hempty := hboundary.2
    rw [bytesAt_of_none hnone, List.take_nil, run_nil] at hempty
    exact (congrArg Scan.units hempty).symm
  rw [hunits] at habsorbs
  rw [hsegment] at hreads
  refine ⟨after, ?_, ?_⟩
  · rw [hk, habsorbs.functional (.nil before)]
    exact hreads
  · rw [hchain, hincomplete, hsegment, hk]
    rfl

/-- The bytes of a slice are counted. -/
lemma admitFrontier_bytesRead {metadata : FileStamp}
    (hexec : (admitFrontier d metadata (tail.readFrontier d) delta).exec tail
      = (.ok delta', tail')) :
    delta'.work.bytesRead = delta.work.bytesRead + (tail.readFrontier d).length := by
  have hnothing : Tells d (fun _ _ _ => True : ChainDelta Op → _ → _ → Prop) :=
    ⟨fun _ => trivial, fun _ _ => trivial, fun _ _ _ _ _ => trivial, fun _ _ _ => trivial⟩
  unfold admitFrontier at hexec
  dsimp only at hexec
  rw [exec_bind_of_ok (exec_get tail)] at hexec
  obtain ⟨⟨partly, delta₁⟩, tail₁, hscan, hexec⟩ := exec_bind_eq_ok.mp hexec
  cases hexec
  exact (@scan_tells _ _ _ _ _ hnothing _ _ tail.chain _ _ _ trivial hscan).2.1

/-- A poll reads on; if it stays where it was, everything has been read. -/
lemma pollLoop_reaches (fuel : ℕ) (h : Reaches d tail)
    (hexec : (pollLoop d fuel delta).exec tail = (.ok delta', tail')) :
    Reaches d tail' ∧ reach d tail ≤ reach d tail'
      ∧ (0 < fuel → reach d tail = reach d tail' →
        ∀ k, (∀ n : ℕ, d.segments[n]?.isSome ↔ n < k) → Finished d k tail')
      ∧ delta.work.bytesRead ≤ delta'.work.bytesRead
      ∧ (delta'.work.bytesRead = delta.work.bytesRead → tail'.chain = tail.chain) := by
  induction fuel generalizing delta tail with
  | zero =>
    cases hexec
    exact ⟨h, le_rfl, fun hpos => absurd hpos (lt_irrefl 0), le_rfl, fun _ => rfl⟩
  | succ fuel ih =>
    obtain ⟨shadowed, tails, hfollows⟩ := h.frontier
    have hopened : tail.openFrontier d = .ok (d.segments[tail.segment]?.map FileStamp.read) :=
      hfollows.openFrontier
    rcases pollLoop_eq_ok hexec with ⟨hnothing, rfl, rfl⟩ |
      ⟨metadata, seen, delta₁, hfound, hfirst, hrest⟩
    · -- there is no segment to open
      rw [hopened] at hnothing
      have hnone : d.segments[tail'.segment]? = none := by simpa using hnothing
      exact ⟨h, le_rfl, fun _ _ k hdense => h.finished_of_none hdense hnone, le_rfl, fun _ => rfl⟩
    · rw [hopened] at hfound
      obtain ⟨file, hfile, rfl⟩ := Option.map_eq_some_iff.mp (Except.ok.inj hfound)
      obtain ⟨hseen, hsegment, hoffset, hexhausted, hempty⟩ := h.visit hfile hfirst
      have hread := admitFrontier_bytesRead hfirst
      have hforward : reach d tail ≤ reach d seen := by
        unfold reach
        rw [hsegment]
        omega
      have hidle : delta₁.work.bytesRead = delta.work.bytesRead → seen.chain = tail.chain := by
        intro hsame
        apply hempty
        apply List.length_eq_zero_iff.mp
        omega
      rcases hrest with ⟨hmoved, rfl, rfl⟩ | ⟨next, hstays, hnumber, hrest⟩
      · refine ⟨hseen, hforward, fun _ hstay => ?_, by omega, hidle⟩
        unfold reach at hstay
        rw [hsegment] at hstay
        omega
      · have hexhausted := hexhausted (by omega)
        obtain rfl := nextSegment_eq_ok hnumber
        rcases hrest with ⟨hlast, rfl, rfl⟩ | ⟨hmore, hexec⟩
        · have hfinished : ∀ k, (∀ n : ℕ, d.segments[n]?.isSome ↔ n < k) →
              Finished d k tail' := by
            intro k hdense
            have hin := (hdense tail.segment).mp (by rw [hfile]; rfl)
            have hout : ¬ tail'.segment + 1 < k := by
              rw [← hdense, hlast]
              simp
            have hk : tail'.segment + 1 = k := by omega
            rw [← hk]
            exact hseen.finished hexhausted
          exact ⟨hseen, hforward, fun _ _ => hfinished, by omega, hidle⟩
        · have hadvanced := hseen.advance hexhausted hmore
          obtain ⟨hreaches, hlater, -, hbytes, hchain⟩ := ih hadvanced hexec
          have hleap : reach d seen < reach d (seen.advance (seen.segment + 1)) := by
            have hle := hseen.offset_le
            show span d seen.segment + seen.offset
              < span d seen.segment + (d.bytesAt seen.segment).length + 1 + 0
            omega
          refine ⟨hreaches, by omega, fun _ hstay => by omega, by omega, fun hsame => ?_⟩
          rw [hchain (by omega)]
          exact hidle (by omega)

/-- The frontier stays within the directory. -/
lemma Reaches.reach_le {k : ℕ} (h : Reaches d tail)
    (hdense : ∀ n : ℕ, d.segments[n]?.isSome ↔ n < k) : reach d tail ≤ span d k := by
  have hle := h.offset_le
  obtain ⟨shadowed, tails, hfollows⟩ := h.frontier
  unfold reach
  by_cases hnone : d.segments[tail.segment]? = none
  · have hsegment : tail.segment = 0 := by
      by_contra hne
      exact hfollows.reached (Nat.pos_of_ne_zero hne) hnone
    rw [bytesAt_of_none hnone, List.length_nil] at hle
    rw [hsegment, span]
    omega
  · have hlt : tail.segment < k := by
      rw [← hdense]
      exact Option.isSome_iff_ne_none.mpr hnone
    have hspan := span_mono d (show tail.segment + 1 ≤ k from hlt)
    rw [span] at hspan
    omega

/-- A frontier in a later segment has come further. -/
lemma Reaches.reach_lt (h : Reaches d tail) (hlt : tail.segment < tail'.segment) :
    reach d tail < reach d tail' := by
  have hle := h.offset_le
  have hspan := span_mono d (show tail.segment + 1 ≤ tail'.segment from hlt)
  rw [span] at hspan
  unfold reach
  omega

lemma Reaches.eq_of_reach_eq (h : Reaches d tail) (h' : Reaches d tail')
    (heq : reach d tail = reach d tail') :
    tail.segment = tail'.segment ∧ tail.offset = tail'.offset := by
  have hsegment : tail.segment = tail'.segment := by
    rcases lt_trichotomy tail.segment tail'.segment with hlt | hsame | hgt
    · exact absurd heq (h.reach_lt hlt).ne
    · exact hsame
    · exact absurd heq (h'.reach_lt hgt).ne'
  refine ⟨hsegment, ?_⟩
  unfold reach at heq
  rw [hsegment] at heq
  omega

/-- A drain reads on; if it reads no byte, the chain stays as it is. -/
lemma drainLoop_reaches (fuel : ℕ) (h : Reaches d tail)
    (hexec : (drainLoop d fuel delta).exec tail = (.ok delta', tail')) :
    Reaches d tail' ∧ delta.work.bytesRead ≤ delta'.work.bytesRead
      ∧ (delta'.work.bytesRead = delta.work.bytesRead → tail'.chain = tail.chain) := by
  induction fuel generalizing delta tail with
  | zero =>
    cases hexec
    exact ⟨h, le_rfl, fun _ => rfl⟩
  | succ fuel ih =>
    obtain ⟨delta₁, polled, hpoll, hrest⟩ := drainLoop_eq_ok hexec
    obtain ⟨hreaches, -, -, -, hchain⟩ := pollLoop_reaches _ h hpoll
    have hsum : (fold delta delta₁).work.bytesRead
        = delta.work.bytesRead + delta₁.work.bytesRead := rfl
    have hidle : delta₁.work.bytesRead = 0 → polled.chain = tail.chain := hchain
    rcases hrest with ⟨-, rfl, rfl⟩ | ⟨-, hexec⟩
    · exact ⟨hreaches, by omega, fun hzero => hidle (by omega)⟩
    · obtain ⟨hlast, hbytes, hrest⟩ := ih hreaches hexec
      refine ⟨hlast, by omega, fun hzero => ?_⟩
      rw [hrest (by omega)]
      exact hidle (by omega)

/-- A drain with a turn for each byte and segment that is left reads everything. -/
lemma drainLoop_finished {k : ℕ} (hdense : ∀ n : ℕ, d.segments[n]?.isSome ↔ n < k) (fuel : ℕ)
    (h : Reaches d tail) (hfuel : span d k < reach d tail + fuel)
    (hexec : (drainLoop d fuel delta).exec tail = (.ok delta', tail')) : Finished d k tail' := by
  induction fuel generalizing delta tail with
  | zero =>
    have hle := h.reach_le hdense
    omega
  | succ fuel ih =>
    obtain ⟨delta₁, polled, hpoll, hrest⟩ := drainLoop_eq_ok hexec
    obtain ⟨hreaches, hforward, hfinished, -⟩ := pollLoop_reaches _ h hpoll
    rcases hrest with ⟨hsame, rfl, rfl⟩ | ⟨hmoved, hexec⟩
    · have hstay : reach d tail = reach d tail' := by
        obtain ⟨hsegment, hoffset⟩ := Prod.mk.inj hsame
        unfold reach
        rw [hsegment, hoffset]
      exact hfinished (by omega) hstay k hdense
    · have hlt : reach d tail < reach d polled := by
        apply lt_of_le_of_ne hforward
        intro heq
        obtain ⟨hsegment, hoffset⟩ := h.eq_of_reach_eq hreaches heq
        exact hmoved (by rw [hsegment, hoffset])
      exact ih hreaches (by omega) hexec

/-- A drain reads everything; if it reads no byte, the chain stays as it is. -/
lemma drain_reaches (h : Reaches d tail) (hexec : (drain d).exec tail = (.ok delta, tail')) :
    Reaches d tail' ∧ (∀ k, (∀ n : ℕ, d.segments[n]?.isSome ↔ n < k) → Finished d k tail')
      ∧ (delta.work.bytesRead = 0 → tail'.chain = tail.chain) := by
  obtain ⟨hreaches, -, hchain⟩ := drainLoop_reaches _ h hexec
  refine ⟨hreaches, fun k hdense => ?_, hchain⟩
  have hspan := (size_add_totalBytes hdense).2
  exact drainLoop_finished hdense _ h (by omega) hexec

/-- Opening drains an empty frontier. -/
lemma exec_openLoop (fuel : ℕ) (result : ChainDelta Op) (tail : Tail (IndexedChain Op)) :
    (openLoop d fuel).exec tail = (((drainLoop d fuel result).exec tail).1.map fun _ => (),
      ((drainLoop d fuel result).exec tail).2) := by
  induction fuel generalizing result tail with
  | zero => rfl
  | succ fuel ih =>
    unfold openLoop drainLoop
    rw [exec_bind_of_ok (exec_get tail), exec_bind_of_ok (exec_get tail), exec_bind, exec_bind]
    cases hpoll : (poll d).exec tail with
    | mk polled tail₁ =>
      cases polled with
      | error error => rfl
      | ok delta =>
        dsimp only
        rw [exec_bind_of_ok (exec_get tail₁), exec_bind_of_ok (exec_get tail₁)]
        split
        · rfl
        · exact ih _ tail₁

/-- To open is to drain an empty frontier. -/
lemma openAll_eq_ok {root : String} (hopen : openAll root d = .ok tail) :
    (∃ k, ∀ n : ℕ, d.segments[n]?.isSome ↔ n < k)
      ∧ ∃ delta, (drain d).exec (Tail.empty root : Tail (IndexedChain Op)) = (.ok delta, tail) := by
  unfold openAll at hopen
  obtain ⟨sequences, hsequences, hopen⟩ := bind_eq_ok.mp hopen
  obtain ⟨-, -, hdense⟩ := segmentSequences_eq_ok hsequences
  refine ⟨⟨_, hdense⟩, ?_⟩
  rw [exec_openLoop _ {} _] at hopen
  cases hdrain : (drain d).exec (Tail.empty root : Tail (IndexedChain Op)) with
  | mk result drained =>
    unfold drain at hdrain
    rw [hdrain] at hopen
    cases result with
    | error error => cases hopen
    | ok delta =>
      cases hopen
      exact ⟨delta, rfl⟩

end Tail

end EditChain.Store
