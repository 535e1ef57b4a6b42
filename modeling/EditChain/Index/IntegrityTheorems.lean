import EditChain.Index.Integrity
import EditChain.Index.AtomicTheorems

/-!
# What an audit finds

The retained variants of a fresh replay are the distinct records of the log, and the counts tell
whether the log is whole. An audit therefore reports exactly the unavailable content of the records
of the log, whatever the index says; and a handle that was just refreshed passes the comparison.
-/

namespace EditChain.Store

open Core Fallible UnitReader
open Std (ExtTreeMap)

variable {Op : Type} [Schema Op] [Checksum] {d : Directory}

/-! ## Reading back -/

omit [Schema Op] in
lemma length_of_readEncodedAt {location : OpRecordLocation} {encoded : Bytes}
    (h : readEncodedAt d location = .ok encoded) : encoded.length = location.dataLen := by
  unfold readEncodedAt at h
  split at h
  · cases h
  · split at h
    · cases h
    · dsimp only at h
      split at h
      · cases h
      · next hlength =>
        split at h
        · cases h
        · cases h
          exact not_not.mp hlength

lemma readOpAt_of_encoded {location : OpRecordLocation} {encoded : Bytes} {op : Op}
    (hread : readEncodedAt d location = .ok encoded) (hop : Schema.decodeOp encoded = .ok op) :
    readOpAt d location = .ok op := by
  unfold readOpAt
  rw [hread]
  refine bind_eq_ok.mpr ⟨encoded, rfl, ?_⟩
  rw [hop]
  rfl

namespace IndexedChain

variable {chain chain' after : IndexedChain Op}

omit [Schema Op] in
/-- What is held is held at one of the locations. -/
lemma holds_spec {encoded : Bytes} {locations : List OpRecordLocation} {known : Bool}
    (h : holds d encoded locations = .ok known) :
    known = true ↔ ∃ location ∈ locations, readEncodedAt d location = .ok encoded := by
  induction locations with
  | nil =>
    cases h
    simp
  | cons location rest ih =>
    rw [List.exists_mem_cons_iff]
    unfold holds at h
    split at h
    · obtain ⟨bytes, hbytes, h⟩ := bind_eq_ok.mp h
      split at h
      · -- the search stops at the first location with the same bytes
        next hsame =>
        cases h
        exact iff_of_true rfl (.inl (hsame ▸ hbytes))
      · next hother =>
        rw [ih h]
        refine ⟨.inr, fun hfound => hfound.resolve_left fun hread => hother ?_⟩
        rw [hbytes] at hread
        exact Except.ok.inj hread
    · next hlength =>
      rw [ih h]
      exact ⟨.inr, fun hfound => hfound.resolve_left fun hread =>
        hlength (length_of_readEncodedAt hread).symm⟩

/-! ## Admissions -/

/-- What an admission does to the variants of its identity and to the count of the quarantined. -/
inductive Extends (d : Directory) (chain chain' : IndexedChain Op) (id : OpId) (encoded : Bytes)
    (location : OpRecordLocation) : Prop
  | first : chain.recordLocations id = [] → chain'.recordLocations id = [location] →
      chain'.stats.quarantined = chain.stats.quarantined →
      Extends d chain chain' id encoded location
  | known : (∃ known ∈ chain.recordLocations id, readEncodedAt d known = .ok encoded) →
      chain'.recordLocations id = chain.recordLocations id →
      chain'.stats.quarantined = chain.stats.quarantined →
      Extends d chain chain' id encoded location
  | further : chain.recordLocations id ≠ [] →
      (∀ known ∈ chain.recordLocations id, readEncodedAt d known ≠ .ok encoded) →
      chain'.recordLocations id = chain.recordLocations id ++ [location] →
      chain'.stats.quarantined ≠ 0 → Extends d chain chain' id encoded location

lemma admitRecord_extends (htidy : chain.Tidy) {op : Op} {encoded : Bytes}
    {location : OpRecordLocation} {admission : Admission}
    (h : (admitRecord d op encoded location).exec chain = (.ok admission, chain')) :
    Extends d chain chain' (Schema.id op) encoded location
      ∧ chain'.stats.undecodable = chain.stats.undecodable := by
  obtain ⟨hvaries, -, -⟩ := admitRecord_varies htidy h
  unfold admitRecord at h
  rw [exec_bind_of_ok (exec_get chain)] at h
  dsimp only at h
  obtain ⟨found, same, hclassify, h⟩ := exec_bind_eq_ok.mp h
  obtain ⟨hverdict, rfl⟩ := Prod.mk.inj hclassify
  change chain.classify d (Schema.id op) encoded = .ok found at hverdict
  unfold classify at hverdict
  cases hentry : chain.entries[Schema.id op]? with
  | none =>
    rw [hentry] at hverdict
    cases hverdict
    cases h
    cases hvaries with
    | accepted hnone hone => exact ⟨.first hnone hone rfl, rfl⟩
  | some entry =>
    rw [hentry] at hverdict
    obtain ⟨known, hknown, hverdict⟩ := bind_eq_ok.mp hverdict
    have hspec := holds_spec hknown
    have hlocations : chain.recordLocations (Schema.id op)
        = entry.location :: chain.conflicts[Schema.id op]?.getD [] := by
      unfold recordLocations
      rw [hentry]
      rfl
    rw [← hlocations] at hspec
    cases known with
    | true =>
      cases hverdict
      cases h
      exact ⟨.known (hspec.mp rfl) rfl rfl, rfl⟩
    | false =>
      cases hverdict
      dsimp only at h
      rw [hentry] at h
      cases h
      cases hvaries with
      | conflict hmore =>
        refine ⟨.further (by rw [hlocations]; simp) (fun place hplace hread => ?_) hmore ?_, rfl⟩
        · exact Bool.false_ne_true (hspec.mpr ⟨place, hplace, hread⟩)
        · dsimp only
          split <;> omega

/-! ## Retention -/

/-- The retained variants are the distinct records among those that were read, and the counts tell
whether there is more than one variant of an identity, or a record that cannot be decoded. -/
structure Retains (d : Directory) (seen : List Bytes) (chain : IndexedChain Op) : Prop where
  tidy : chain.Tidy
  kept : ∀ encoded ∈ seen, ∀ op : Op, Schema.decodeOp encoded = .ok op →
    ∃ location ∈ chain.recordLocations (Schema.id op), readEncodedAt d location = .ok encoded
  origin : ∀ id, ∀ location ∈ chain.recordLocations id, ∃ encoded ∈ seen, ∃ op : Op,
    readEncodedAt d location = .ok encoded ∧ Schema.decodeOp encoded = .ok op ∧ Schema.id op = id
  apart : ∀ id, (chain.recordLocations id).Pairwise
    fun a b => readEncodedAt d a ≠ readEncodedAt d b
  quarantined : chain.stats.quarantined = 0 ↔ ∀ id, (chain.recordLocations id).length ≤ 1
  undecodable : chain.stats.undecodable = 0 ↔
    ∀ encoded ∈ seen, ∃ op : Op, Schema.decodeOp encoded = .ok op

lemma retains_empty : Retains d [] ({} : IndexedChain Op) := by
  have hnone : ∀ id : OpId, ({} : IndexedChain Op).recordLocations id = [] := by
    intro id
    simp [recordLocations]
  refine ⟨fun id hid => ?_, fun encoded hseen => ?_, fun id location hlocation => ?_, fun id => ?_,
    ?_, ?_⟩
  · simp at hid
  · cases hseen
  · rw [hnone] at hlocation
    cases hlocation
  · rw [hnone]
    exact .nil
  · exact iff_of_true rfl fun id => by rw [hnone]; exact Nat.zero_le _
  · refine iff_of_true rfl fun encoded hseen => ?_
    cases hseen

variable {seen : List Bytes}

/-- A record that cannot be decoded is counted. -/
lemma Retains.undecoded (h : Retains d seen chain) {encoded : Bytes} {error}
    (herror : @Schema.decodeOp Op _ encoded = .error error) :
    Retains d (seen ++ [encoded]) (TailCorpus.recordUndecodable chain) where
  tidy := h.tidy
  kept found hfound op hop := by
    rcases List.mem_append.mp hfound with hseen | hnew
    · exact h.kept found hseen op hop
    · rw [List.mem_singleton.mp hnew, herror] at hop
      cases hop
  origin id location hlocation := by
    obtain ⟨found, hfound, hrest⟩ := h.origin id location hlocation
    exact ⟨found, List.mem_append_left _ hfound, hrest⟩
  apart := h.apart
  quarantined := h.quarantined
  undecodable := by
    refine iff_of_false (Nat.succ_ne_zero _) fun hall => ?_
    obtain ⟨op, hop⟩ := hall encoded (List.mem_append_right _ List.mem_cons_self)
    rw [herror] at hop
    cases hop

/-- A record that is admitted is retained. -/
lemma Retains.admitted (h : Retains d seen chain) {op : Op} {encoded : Bytes}
    {location : OpRecordLocation} {admission : Admission} (hop : Schema.decodeOp encoded = .ok op)
    (hread : readEncodedAt d location = .ok encoded)
    (hexec : (admitRecord d op encoded location).exec chain = (.ok admission, chain')) :
    Retains d (seen ++ [encoded]) chain' := by
  obtain ⟨-, htidy, hothers⟩ := admitRecord_varies h.tidy hexec
  obtain ⟨hextends, hundecodable⟩ := admitRecord_extends h.tidy hexec
  -- there is at most one further location, of an encoding that was not known
  obtain ⟨new, hlocations, hnew⟩ : ∃ new, chain'.recordLocations (Schema.id op)
      = chain.recordLocations (Schema.id op) ++ new
      ∧ ((new = [] ∧ ∃ known ∈ chain.recordLocations (Schema.id op),
          readEncodedAt d known = .ok encoded)
        ∨ (new = [location] ∧ ∀ known ∈ chain.recordLocations (Schema.id op),
          readEncodedAt d known ≠ .ok encoded)) := by
    cases hextends with
    | first hnone hone => exact ⟨[location], by rw [hnone, hone]; rfl, .inr ⟨rfl, by simp [hnone]⟩⟩
    | known hknown hsame => exact ⟨[], by rw [hsame, List.append_nil], .inl ⟨rfl, hknown⟩⟩
    | further _ hunknown hmore => exact ⟨[location], hmore, .inr ⟨rfl, hunknown⟩⟩
  refine ⟨htidy, fun found hfound other hother => ?_, fun id place hplace => ?_, fun id => ?_,
    ?_, ?_⟩
  · -- an admission keeps the locations of every identity and may add one
    rcases List.mem_append.mp hfound with hseen | hlast
    · obtain ⟨place, hplace, hback⟩ := h.kept found hseen other hother
      refine ⟨place, ?_, hback⟩
      by_cases hid : Schema.id other = Schema.id op
      · rw [hid] at hplace ⊢
        rw [hlocations]
        exact List.mem_append_left _ hplace
      · rw [hothers _ hid]
        exact hplace
    · rw [List.mem_singleton.mp hlast] at hother ⊢
      rw [hop] at hother
      cases hother
      rw [hlocations]
      rcases hnew with ⟨-, known, hknown, hback⟩ | ⟨rfl, -⟩
      · exact ⟨known, List.mem_append_left _ hknown, hback⟩
      · exact ⟨location, List.mem_append_right _ List.mem_cons_self, hread⟩
  · by_cases hid : id = Schema.id op
    · subst hid
      rw [hlocations] at hplace
      rcases List.mem_append.mp hplace with hold | hlast
      · obtain ⟨found, hfound, hrest⟩ := h.origin _ place hold
        exact ⟨found, List.mem_append_left _ hfound, hrest⟩
      · rcases hnew with ⟨rfl, -⟩ | ⟨rfl, -⟩
        · cases hlast
        · rw [List.mem_singleton.mp hlast]
          exact ⟨encoded, List.mem_append_right _ List.mem_cons_self, op, hread, hop, rfl⟩
    · rw [hothers id hid] at hplace
      obtain ⟨found, hfound, hrest⟩ := h.origin id place hplace
      exact ⟨found, List.mem_append_left _ hfound, hrest⟩
  · by_cases hid : id = Schema.id op
    · subst hid
      rw [hlocations]
      rcases hnew with ⟨rfl, -⟩ | ⟨rfl, hunknown⟩
      · rw [List.append_nil]
        exact h.apart _
      · refine List.pairwise_append.mpr ⟨h.apart _, List.pairwise_singleton _ _, ?_⟩
        intro known hknown last hlast
        rw [List.mem_singleton.mp hlast, hread]
        exact hunknown known hknown
    · rw [hothers id hid]
      exact h.apart id
  · cases hextends with
    | first hnone hone hcount =>
      rw [hcount, h.quarantined]
      refine forall_congr' fun id => ?_
      by_cases hid : id = Schema.id op
      · rw [hid, hnone, hone]
        simp
      · rw [hothers id hid]
    -- a known encoding changes neither the locations nor the count
    | known _ hsame hcount =>
      rw [hcount, h.quarantined]
      refine forall_congr' fun id => ?_
      by_cases hid : id = Schema.id op
      · rw [hid, hsame]
      · rw [hothers id hid]
    -- the second variant is what quarantines an identity
    | further hsome _ hmore hcount =>
      refine iff_of_false hcount fun hall => ?_
      have hone := hall (Schema.id op)
      have hpos := List.length_pos_of_ne_nil hsome
      rw [hmore, List.length_append, List.length_singleton] at hone
      omega
  · rw [hundecodable, h.undecodable]
    constructor
    · intro hall found hfound
      rcases List.mem_append.mp hfound with hseen | hlast
      · exact hall found hseen
      · exact ⟨op, by rw [List.mem_singleton.mp hlast]; exact hop⟩
    · exact fun hall found hfound => hall found (List.mem_append_left _ hfound)

lemma Retains.absorbs (h : Retains d seen chain) {segment : ℕ} {records : List RecordRef}
    (habsorbs : Absorbs d segment chain records after)
    (hread : ∀ record ∈ records, readEncodedAt d
      ⟨segment, record.dataOffset, record.data.length, record.checksum⟩ = .ok record.data) :
    Retains d (seen ++ records.map RecordRef.data) after := by
  induction habsorbs generalizing seen with
  | nil =>
    rw [List.map_nil, List.append_nil]
    exact h
  | undecodable herror _ ih =>
    rw [List.map_cons, List.append_cons]
    exact ih (h.undecoded herror) fun found hfound => hread found (List.mem_cons_of_mem _ hfound)
  | admitted hop hexec _ ih =>
    rw [List.map_cons, List.append_cons]
    exact ih (h.admitted hop (hread _ List.mem_cons_self) hexec)
      fun found hfound => hread found (List.mem_cons_of_mem _ hfound)

end IndexedChain

/-! ## The records of a log -/

namespace Directory

/-- The encoded records of a segment. -/
def encodedAt (d : Directory) (n : ℕ) : List Bytes :=
  (unitRecords (pages.run none (d.bytesAt n)).units).map RecordRef.data

/-- A log holds a record. -/
def Holds (d : Directory) (encoded : Bytes) : Prop := ∃ n, encoded ∈ d.encodedAt n

/-- Every record of a log can be decoded, no two records of one operation differ, and no segment
ends within a record. -/
structure Whole (Op : Type) [Schema Op] (d : Directory) : Prop where
  decoded : ∀ encoded, d.Holds encoded → ∃ op : Op, Schema.decodeOp encoded = .ok op
  agreed : ∀ (a b : Bytes) (x y : Op), d.Holds a → d.Holds b → Schema.decodeOp a = .ok x →
    Schema.decodeOp b = .ok y → Schema.id x = Schema.id y → a = b
  ended : ∀ n, Tail.short (bytesBeyond (d.bytesAt n)) = false

omit [Schema Op] [Checksum] in
lemma mem_recordRefs {record : RecordRef} {items : List ScanItem} :
    record ∈ recordRefs items ↔ .record record ∈ items := by
  induction items with
  | nil => simp [recordRefs]
  | cons item items ih => cases item <;> simp [recordRefs, ih]

omit [Schema Op] in
/-- A record of a segment can be read back. -/
lemma readEncodedAt_of_unit {n : ℕ} {file : SegmentFile} (hfile : d.segments[n]? = some file)
    {record : RecordRef} (h : record ∈ unitRecords (pages.run none (d.bytesAt n)).units) :
    readEncodedAt d ⟨n, record.dataOffset, record.data.length, record.checksum⟩
      = .ok record.data := by
  have hitem : .ok (.record record) ∈ (PageScanner.resume (d.bytesAt n) none).items.1 := by
    rw [PageScanner.items_resume]
    exact List.mem_append_left _ (List.mem_map.mpr ⟨_, mem_recordRefs.mp h, rfl⟩)
  have hlies : record.Lies (d.bytesAt n) := PageScanner.collect_lies hitem
  rw [bytesAt_of_some hfile] at hlies
  have hwhole : (file.bytes.drop 0).take file.bytes.length = file.bytes := by
    rw [List.drop_zero, List.take_length]
  rw [← hwhole] at hlies
  have hread := readEncodedAt_of_lies hfile hlies
  rw [Nat.zero_add] at hread
  exact hread

variable {k : ℕ}

/-- The encoded records of the first `k` segments. -/
def encodedBelow (d : Directory) (k : ℕ) : List Bytes := (List.range k).flatMap d.encodedAt

omit [Schema Op] in
lemma encodedAt_of_none {n : ℕ} (h : d.segments[n]? = none) : d.encodedAt n = [] := by
  unfold encodedAt
  rw [bytesAt_of_none h, run_nil]
  rfl

omit [Schema Op] in
lemma mem_encodedBelow (hdense : ∀ n : ℕ, d.segments[n]?.isSome ↔ n < k) {encoded : Bytes} :
    encoded ∈ d.encodedBelow k ↔ d.Holds encoded := by
  unfold encodedBelow Holds
  rw [List.mem_flatMap]
  constructor
  · rintro ⟨n, -, hmem⟩
    exact ⟨n, hmem⟩
  · rintro ⟨n, hmem⟩
    refine ⟨n, List.mem_range.mpr ?_, hmem⟩
    rw [← hdense]
    by_contra hnone
    rw [Option.not_isSome_iff_eq_none] at hnone
    rw [encodedAt_of_none hnone] at hmem
    cases hmem

omit [Schema Op] in
lemma countBeyond_eq_zero {p : ℕ → Bool} :
    d.countBeyond p k = 0 ↔ ∀ n < k, p (bytesBeyond (d.bytesAt n)) = false := by
  induction k with
  | zero => simp [countBeyond]
  | succ k ih =>
    unfold countBeyond
    rw [Nat.add_eq_zero_iff, ih, Nat.forall_lt_succ_right]
    refine and_congr_right fun _ => ?_
    cases p (bytesBeyond (d.bytesAt k)) <;> simp

end Directory

namespace IndexedChain

open Directory

variable {k : ℕ} {chain : IndexedChain Op}

/-- A replay retains the records of the segments that it read. -/
lemma retains_of_reads (hdense : ∀ n : ℕ, n < k → d.segments[n]?.isSome) (h : Reads d k chain) :
    Retains d (d.encodedBelow k) chain := by
  induction h with
  | zero => exact retains_empty
  -- the next segment, which the dense numbering has
  | @succ n before after hreads habsorbs ih =>
    obtain ⟨file, hfile⟩ := Option.isSome_iff_exists.mp (hdense n (Nat.lt_succ_self n))
    have hbefore := ih fun m hm => hdense m (Nat.lt_succ_of_lt hm)
    have hafter := hbefore.absorbs habsorbs fun record hrecord =>
      readEncodedAt_of_unit hfile hrecord
    unfold encodedBelow
    rw [List.range_succ, List.flatMap_append, List.flatMap_singleton]
    exact hafter

/-- The counts of a replay of the whole log are zero exactly when the log is whole. -/
lemma Retains.whole_iff (hdense : ∀ n : ℕ, d.segments[n]?.isSome ↔ n < k)
    (h : Retains d (d.encodedBelow k) chain) :
    (chain.stats.quarantined = 0 ∧ chain.stats.undecodable = 0
        ∧ d.countBeyond Tail.short k = 0) ↔ d.Whole Op := by
  rw [h.quarantined, h.undecodable, countBeyond_eq_zero]
  constructor
  · rintro ⟨hsingle, hdecoded, hended⟩
    refine ⟨fun encoded hholds => hdecoded encoded ((mem_encodedBelow hdense).mpr hholds),
      fun a b x y ha hb hx hy hid => ?_, fun n => ?_⟩
    · -- both records are read back from the only location of their identity
      obtain ⟨place, hplace, hread⟩ := h.kept a ((mem_encodedBelow hdense).mpr ha) x hx
      obtain ⟨other, hother, hback⟩ := h.kept b ((mem_encodedBelow hdense).mpr hb) y hy
      rw [← hid] at hother
      obtain ⟨only, honly⟩ := List.length_eq_one_iff.mp
        (le_antisymm (hsingle (Schema.id x)) (List.length_pos_of_mem hplace))
      rw [honly] at hplace hother
      rw [List.mem_singleton.mp hplace, ← List.mem_singleton.mp hother, hback] at hread
      exact (Except.ok.inj hread).symm
    · by_cases hlt : n < k
      · exact hended n hlt
      · have hnone : d.segments[n]? = none := by
          rw [← Option.not_isSome_iff_eq_none, hdense]
          exact hlt
        rw [bytesAt_of_none hnone]
        rfl
  · intro hwhole
    refine ⟨fun id => ?_, fun encoded hmem => hwhole.decoded encoded
      ((mem_encodedBelow hdense).mp hmem), fun n _ => hwhole.ended n⟩
    -- two variants of one identity would be two records that differ
    by_contra hmany
    obtain ⟨a, b, rest, hsplit⟩ : ∃ a b rest, chain.recordLocations id = a :: b :: rest := by
      cases hall : chain.recordLocations id with
      | nil => simp [hall] at hmany
      | cons a others =>
        cases others with
        | nil => simp [hall] at hmany
        | cons b rest => exact ⟨a, b, rest, rfl⟩
    obtain ⟨x, hx, left, hreadx, hleft, hidx⟩ := h.origin id a (by simp [hsplit])
    obtain ⟨y, hy, right, hready, hright, hidy⟩ := h.origin id b (by simp [hsplit])
    have hapart := h.apart id
    rw [hsplit] at hapart
    refine (List.pairwise_cons.mp hapart).1 b List.mem_cons_self ?_
    rw [hreadx, hready, hwhole.agreed x y left right ((mem_encodedBelow hdense).mp hx)
      ((mem_encodedBelow hdense).mp hy) hleft hright (hidx.trans hidy.symm)]

end IndexedChain
end EditChain.Store

namespace EditChain.Index

open Core Fallible Store
open Std (ExtTreeMap ExtTreeSet TransOrd LawfulEqOrd)

variable {Op Ref Key : Type} [Schema Op] [Checksum] [IndexSchema Op Ref Key] [DecidableEq Key]
  [Ord Ref] [TransOrd Ref] [LawfulEqOrd Ref] [DecidableEq Ref]

/-! ## Content issues -/

namespace State

variable {d : Directory} {state : State Op Ref Key} {truth : Ref → ContentState}
  {answers answers' : Answers Ref}

omit [Schema Op] [Checksum] [IndexSchema Op Ref Key] [DecidableEq Key] [LawfulEqOrd Ref]
  [DecidableEq Ref] in
lemma availability_spec (hcurrent : state.content.Current truth) (hhonest : Honest truth answers)
    {reference : Ref} {found : ContentState}
    (h : (state.availability answering reference).exec answers = (.ok found, answers')) :
    found = truth reference ∧ answers' = answers := by
  unfold availability at h
  split at h
  · next status hstatus =>
    cases h
    exact ⟨hcurrent reference found hstatus, rfl⟩
  · obtain ⟨hanswer, rfl⟩ := Prod.mk.inj h
    exact ⟨hhonest reference found hanswer, rfl⟩

omit [Schema Op] [Checksum] [IndexSchema Op Ref Key] [DecidableEq Key] [LawfulEqOrd Ref]
  [DecidableEq Ref] in
/-- The issues of a record are at its references that are not available. -/
lemma recordIssues_spec (hcurrent : state.content.Current truth) (hhonest : Honest truth answers)
    {id : OpId} {location : OpRecordLocation} {references : List Ref}
    {issues : List (ContentIssue Ref)}
    (h : (state.recordIssues answering id location references).exec answers
      = (.ok issues, answers')) :
    answers' = answers ∧ ∀ issue, issue ∈ issues ↔ issue.operation = id ∧ issue.location = location
      ∧ issue.reference ∈ references ∧ issue.state = truth issue.reference
      ∧ issue.state ≠ .available := by
  induction references generalizing issues answers' with
  | nil =>
    cases h
    exact ⟨rfl, by simp⟩
  | cons reference rest ih =>
    rw [recordIssues] at h
    obtain ⟨found, middle, hfound, hrest⟩ := exec_bind_eq_ok.mp h
    clear h
    obtain ⟨rfl, rfl⟩ := availability_spec hcurrent hhonest hfound
    obtain ⟨others, last, hothers, hend⟩ := exec_bind_eq_ok.mp hrest
    clear hrest
    obtain ⟨rfl, hmem⟩ := ih hothers
    split at hend
    · next havailable =>
      cases hend
      refine ⟨rfl, fun issue => ?_⟩
      rw [hmem, List.mem_cons]
      refine and_congr_right fun _ => and_congr_right fun _ => ?_
      constructor
      · rintro ⟨hin, hstate⟩
        exact ⟨.inr hin, hstate⟩
      · -- what is available gives no issue
        rintro ⟨rfl | hin, hstate, hlacking⟩
        · exact absurd (hstate.trans havailable) hlacking
        · exact ⟨hin, hstate, hlacking⟩
    · next hlacking =>
      cases hend
      refine ⟨rfl, fun issue => ?_⟩
      rw [List.mem_cons, hmem, List.mem_cons]
      constructor
      · rintro (rfl | ⟨hid, hlocation, hin, hstate⟩)
        · exact ⟨rfl, rfl, .inl rfl, rfl, hlacking⟩
        · exact ⟨hid, hlocation, .inr hin, hstate⟩
      · rintro ⟨hid, hlocation, rfl | hin, hstate, hnot⟩
        · exact .inl (ContentIssue.ext hid hlocation rfl hstate)
        · exact .inr ⟨hid, hlocation, hin, hstate, hnot⟩

omit [DecidableEq Key] [LawfulEqOrd Ref] [DecidableEq Ref] in
/-- The issues of several records. -/
lemma variantIssues_spec (hcurrent : state.content.Current truth) (hhonest : Honest truth answers)
    {variants : List (OpId × OpRecordLocation)} {issues : List (ContentIssue Ref)}
    (h : (state.variantIssues answering d variants).exec answers = (.ok issues, answers')) :
    answers' = answers ∧ ∀ issue, issue ∈ issues ↔ (issue.operation, issue.location) ∈ variants
      ∧ (∃ op : Op, readOpAt d issue.location = .ok op
        ∧ issue.reference ∈ IndexSchema.references op)
      ∧ issue.state = truth issue.reference ∧ issue.state ≠ .available := by
  induction variants generalizing issues answers' with
  | nil =>
    cases h
    exact ⟨rfl, by simp⟩
  | cons variant rest ih =>
    obtain ⟨id, location⟩ := variant
    rw [variantIssues] at h
    obtain ⟨op, middle, hread, hrest⟩ := exec_bind_eq_ok.mp h
    clear h
    obtain ⟨hop, rfl⟩ := Prod.mk.inj hread
    obtain ⟨found, middle, hfound, hlater⟩ := exec_bind_eq_ok.mp hrest
    clear hrest
    obtain ⟨rfl, hone⟩ := recordIssues_spec hcurrent hhonest hfound
    obtain ⟨others, last, hothers, hend⟩ := exec_bind_eq_ok.mp hlater
    clear hlater
    obtain ⟨rfl, hmem⟩ := ih hothers
    cases hend
    refine ⟨rfl, fun issue => ?_⟩
    rw [List.mem_append, hone, hmem, List.mem_cons, Prod.mk.injEq]
    constructor
    · rintro (⟨rfl, rfl, hin, hstate⟩ | ⟨hin, hrest⟩)
      · exact ⟨.inl ⟨rfl, rfl⟩, ⟨op, hop, hin⟩, hstate⟩
      · exact ⟨.inr hin, hrest⟩
    · rintro ⟨⟨rfl, rfl⟩ | hin, ⟨other, hother, href⟩, hstate⟩
      · rw [hop] at hother
        cases hother
        exact .inl ⟨rfl, rfl, href, hstate⟩
      · exact .inr ⟨hin, ⟨other, hother, href⟩, hstate⟩

omit [Schema Op] [Checksum] [IndexSchema Op Ref Key] [DecidableEq Key] [LawfulEqOrd Ref]
  [DecidableEq Ref] in
/-- Where content is answered, the issues are found. -/
lemma recordIssues_succeeds (state : State Op Ref Key) (h : Answered answers) (id : OpId)
    (location : OpRecordLocation) (references : List Ref) :
    ∃ issues, (state.recordIssues answering id location references).exec answers
      = (.ok issues, answers) := by
  induction references with
  | nil => exact ⟨[], rfl⟩
  | cons reference rest ih =>
    obtain ⟨issues, hissues⟩ := ih
    obtain ⟨found, hfound⟩ : ∃ found, (state.availability answering reference).exec answers
        = (.ok found, answers) := by
      unfold availability
      cases state.content.status reference with
      | some status => exact ⟨status, rfl⟩
      | none =>
        obtain ⟨status, hstatus⟩ := h reference
        exact ⟨status, Prod.ext hstatus rfl⟩
    rw [recordIssues, exec_bind_of_ok hfound, exec_bind_of_ok hissues]
    split
    · exact ⟨_, rfl⟩
    · exact ⟨_, rfl⟩

omit [DecidableEq Key] [LawfulEqOrd Ref] [DecidableEq Ref] in
lemma variantIssues_succeeds (state : State Op Ref Key) (h : Answered answers)
    (variants : List (OpId × OpRecordLocation))
    (hread : ∀ variant ∈ variants, ∃ op : Op, readOpAt d variant.2 = .ok op) :
    ∃ issues, (state.variantIssues answering d variants).exec answers = (.ok issues, answers) := by
  induction variants with
  | nil => exact ⟨[], rfl⟩
  | cons variant rest ih =>
    obtain ⟨id, location⟩ := variant
    obtain ⟨op, hop⟩ := hread _ List.mem_cons_self
    obtain ⟨found, hfound⟩ :=
      recordIssues_succeeds state h id location (IndexSchema.references op)
    obtain ⟨issues, hissues⟩ := ih fun other hother => hread other (List.mem_cons_of_mem _ hother)
    rw [variantIssues, exec_bind, exec_lift, hop]
    dsimp only
    rw [exec_bind_of_ok hfound, exec_bind_of_ok hissues]
    exact ⟨_, rfl⟩

omit [IndexSchema Op Ref Key] [DecidableEq Key] [TransOrd Ref] [LawfulEqOrd Ref]
  [DecidableEq Ref] [Checksum] [Schema Op] in
/-- The records that an audit looks at. -/
lemma mem_variants (htidy : state.tail.chain.Tidy) {id : OpId} {location : OpRecordLocation} :
    (id, location) ∈ (state.tail.chain.identities.flatMap fun id =>
        (state.tail.chain.recordLocations id).map (id, ·))
      ↔ location ∈ state.tail.chain.recordLocations id := by
  rw [List.mem_flatMap]
  constructor
  · rintro ⟨other, -, hmem⟩
    obtain ⟨place, hplace, heq⟩ := List.mem_map.mp hmem
    cases heq
    exact hplace
  · intro hmem
    refine ⟨id, ?_, List.mem_map.mpr ⟨location, hmem, rfl⟩⟩
    -- an identity without an entry has no variants
    unfold IndexedChain.identities
    rw [ExtTreeMap.mem_keys, ExtTreeMap.mem_iff_isSome_getElem?]
    by_contra hnone
    rw [Option.not_isSome_iff_eq_none] at hnone
    have hfree : state.tail.chain.conflicts[id]? = none := by
      apply htidy.conflicts_eq_none
      intro entry hentry
      rw [hnone] at hentry
      cases hentry
    unfold IndexedChain.recordLocations at hmem
    rw [hnone, hfree] at hmem
    cases hmem

end State

/-! ## Checkpoints and handles -/

namespace Setting

variable {root : String} {w w' : Setting Op Ref Key} {index : ChainIndex Op Ref Key}

/-- A refresh of the handle that succeeds. -/
def Refreshes (w w' : Setting Op Ref Key) : Prop :=
  ∃ index answers damage outcome delta session, w.handle = some index ∧ Honest w.truth answers
    ∧ (ChainIndex.refresh answering ⟨w.directory, answers, damage, outcome⟩).exec ⟨w.saved, index⟩
      = (.ok delta, session)
    ∧ w' = { w with saved := session.saved, handle := some session.index }

/-- After a refresh, the checkpoint and the handle are fresh. -/
lemma Refreshes.fresh {d : Directory} {truth : Ref → ContentState}
    (hrun : Run root { directory := d, truth := truth } w) (h : Refreshes w w')
    (hindex : w'.handle = some index) :
    w'.saved = some index.state ∧ index.state.Fresh w'.directory w'.truth := by
  obtain ⟨before, answers, damage, outcome, delta, session, hbefore, hhonest, hrefresh, rfl⟩ := h
  cases hindex
  have hsound := Run.from_empty hrun
  obtain ⟨-, -, hfresh⟩ := ChainIndex.refresh_mirrors rfl hhonest (hsound.handle before hbefore)
    hsound.saved hrefresh
  obtain ⟨hsynced, hopen⟩ := ChainIndex.refresh_synced (Run.synced hrun before hbefore) hrefresh
  exact ⟨hsynced (hopen delta rfl), hfresh delta rfl⟩

end Setting

/-! ## Audits -/

namespace State

variable {d : Directory} {state : State Op Ref Key} {truth : Ref → ContentState}
  {answers answers' : Answers Ref}

/-- What is built has the counts and the variants of the log. -/
lemma build_retains {root name : String} (hname : name ≠ "") (hhonest : Honest truth answers)
    (hbuild : (build answering root d name).exec answers = (.ok state, answers')) :
    (state.tail.chain.stats.quarantined = 0 ∧ state.tail.chain.stats.undecodable = 0
        ∧ state.tail.chain.stats.incompleteTails = 0 ↔ d.Whole Op)
      ∧ (∀ (encoded : Bytes) (op : Op), d.Holds encoded → Schema.decodeOp encoded = .ok op →
        ∃ location ∈ state.tail.chain.recordLocations (Schema.id op), readOpAt d location = .ok op)
      ∧ ∀ id, ∀ location ∈ state.tail.chain.recordLocations id, ∃ encoded, ∃ op : Op,
        d.Holds encoded ∧ Schema.decodeOp encoded = .ok op ∧ Schema.id op = id
          ∧ readOpAt d location = .ok op := by
  obtain ⟨-, -, k, hdense, after, hreads, hchain⟩ := build_mirrors hname hhonest hbuild
  have hretains := IndexedChain.retains_of_reads (fun n hn => (hdense n).mpr hn) hreads
  have hwhole := hretains.whole_iff hdense
  rw [hchain]
  refine ⟨hwhole, fun encoded op hholds hop => ?_, fun id location hlocation => ?_⟩
  · obtain ⟨location, hlocation, hread⟩ :=
      hretains.kept encoded ((Directory.mem_encodedBelow hdense).mpr hholds) op hop
    exact ⟨location, hlocation, readOpAt_of_encoded hread hop⟩
  · obtain ⟨encoded, hseen, op, hread, hop, hid⟩ := hretains.origin id location hlocation
    exact ⟨encoded, op, (Directory.mem_encodedBelow hdense).mp hseen, hop, hid,
      readOpAt_of_encoded hread hop⟩

/-- Building asks for content, and leaves it as it is. -/
lemma build_answers {root name : String} (hhonest : Honest truth answers)
    (hexec : (build answering root d name).exec answers = (.ok state, answers')) :
    answers' = answers := by
  unfold build at hexec
  obtain ⟨tail, s₁, htail, hexec⟩ := exec_bind_eq_ok.mp hexec
  obtain ⟨-, rfl⟩ := Prod.mk.inj htail
  obtain ⟨operations, s₂, hlocated, hexec⟩ := exec_bind_eq_ok.mp hexec
  obtain ⟨-, rfl⟩ := Prod.mk.inj hlocated
  obtain ⟨⟨added, reads⟩, s₃, hadd, hexec⟩ := exec_bind_eq_ok.mp hexec
  obtain ⟨-, rfl⟩ := Prod.mk.inj hexec
  exact (gains_addAll hhonest hadd).1

end State

namespace ChainIndex

variable [∀ state expected : State Op Ref Key, Decidable (state.Matches expected)] {root : String}
  {d : Directory} {truth : Ref → ContentState} {answers answers' : Answers Ref}
  {damage : Option IoError} {session : Session Op Ref Key}

omit [Schema Op] [Checksum] [IndexSchema Op Ref Key] [DecidableEq Key] [TransOrd Ref]
  [LawfulEqOrd Ref] [DecidableEq Ref] in
/-- The comparison ends at a damaged page, and nowhere else once the frontier can be resumed. -/
lemma comparison_eq (damage : Option IoError) (expected : State Op Ref Key)
    (session : Session Op Ref Key) {published : State Op Ref Key}
    (hpublished : session.saved = some published)
    (hresume : published.tail.resume root d = .ok ()) :
    comparison root d damage expected session = damage.elim
      (.ok (decide (published.Matches expected) && decide (session.index.state.Matches expected)))
      .error := by
  unfold comparison
  rw [hpublished]
  cases damage with
  | none =>
    refine bind_eq_ok.mpr ⟨(), rfl, bind_eq_ok.mpr ⟨published, rfl, ?_⟩⟩
    rw [hresume]
    rfl
  | some error => rfl

/-- The parts of a report. -/
lemma verifyIntegrity_eq_ok {name : String} (hhonest : Honest truth answers)
    {report : IntegrityReport Ref} (h : (verifyIntegrity answering root name d damage session).exec
      answers = (.ok report, answers')) :
    ∃ (expected : State Op Ref Key) (issues : List (ContentIssue Ref)),
      (State.build answering root d name).exec answers = (.ok expected, answers)
        ∧ (expected.contentIssues answering d).exec answers = (.ok issues, answers')
        ∧ report = ⟨expected.tail.chain.stats,
          (comparison root d damage expected session).toOption.getD false,
          errorText (comparison root d damage expected session), issues⟩ := by
  unfold verifyIntegrity at h
  obtain ⟨expected, middle, hbuild, hlater⟩ := exec_bind_eq_ok.mp h
  have hsame := State.build_answers hhonest hbuild
  rw [hsame] at hbuild hlater
  obtain ⟨issues, last, hissues, hend⟩ := exec_bind_eq_ok.mp hlater
  cases hend
  exact ⟨expected, issues, hbuild, hissues, rfl⟩

/-- The audit of a healthy chain succeeds. -/
lemma verifyIntegrity_succeeds {name : String} (hname : name ≠ "") (hhonest : Honest truth answers)
    (hhealthy : Healthy d answers) :
    ((verifyIntegrity answering root name d damage session).exec answers).1.isOk = true := by
  obtain ⟨expected, hbuild⟩ : ∃ expected : State Op Ref Key, _ :=
    State.build_succeeds root name hhealthy
  obtain ⟨hmirrors, -, -⟩ := State.build_mirrors hname hhonest hbuild
  obtain ⟨issues, hissues⟩ := State.variantIssues_succeeds expected hhealthy.answered
    (expected.tail.chain.identities.flatMap fun id =>
      (expected.tail.chain.recordLocations id).map (id, ·)) fun variant hvariant => by
      obtain ⟨op, hread, -⟩ :=
        hmirrors.located _ _ ((State.mem_variants hmirrors.tidy).mp hvariant)
      exact ⟨op, hread⟩
  unfold verifyIntegrity
  rw [exec_bind_of_ok hbuild]
  dsimp only
  unfold State.contentIssues
  rw [exec_bind_of_ok hissues]
  rfl

end ChainIndex

namespace Setting

variable [∀ state expected : State Op Ref Key, Decidable (state.Matches expected)]
  {root : String} {w : Setting Op Ref Key} {index : ChainIndex Op Ref Key}

/-- In any state that an index can be in, an audit of a healthy chain succeeds. Whatever the index
says, its content issues are at exactly the unavailable references of the records of the log, with
the state of the content. Its error is that of a damaged page. After a refresh the index matches,
and the report is clean exactly when the index matches, the log is whole, and all referenced content
is available. -/
theorem audit_exact {d : Directory} {truth : Ref → ContentState}
    (hrun : Run root { directory := d, truth := truth } w) (hindex : w.handle = some index)
    {answers : Answers Ref} (hhonest : Honest w.truth answers) (nanos process counter : ℕ)
    (damage : Option IoError) :
    let audit := (ChainIndex.verifyIntegrity answering root (generationName nanos process counter)
      w.directory damage ⟨w.saved, index⟩).exec answers
    (Healthy w.directory answers → audit.1.isOk = true) ∧ ∀ report, audit.1 = .ok report →
      (∀ id reference, (∃ issue ∈ report.contentIssues, issue.operation = id
            ∧ issue.reference = reference)
          ↔ ∃ encoded, ∃ op : Op, w.directory.Holds encoded ∧ Schema.decodeOp encoded = .ok op
            ∧ Schema.id op = id ∧ reference ∈ IndexSchema.references op
            ∧ w.truth reference ≠ .available)
      ∧ (∀ issue ∈ report.contentIssues, issue.state = w.truth issue.reference
          ∧ ∃ op : Op, readOpAt w.directory issue.location = .ok op
            ∧ Schema.id op = issue.operation ∧ issue.reference ∈ IndexSchema.references op)
      ∧ report.indexError = damage.map (·.text)
      ∧ (damage = none → ∀ before, Run root { directory := d, truth := truth } before →
          Refreshes before w → report.indexMatches = true)
      ∧ (report.isClean = true ↔ report.indexMatches = true ∧ w.directory.Whole Op
          ∧ ∀ encoded, ∀ op : Op, w.directory.Holds encoded → Schema.decodeOp encoded = .ok op →
            ∀ reference ∈ IndexSchema.references op, w.truth reference = .available) := by
  intro audit
  have hempty : Moored root ({ directory := d, truth := truth } : Setting Op Ref Key) :=
    ⟨⟨nofun, nofun⟩, nofun, nofun, nofun⟩
  have hmoored := Named.moored hempty hrun
  obtain ⟨-, published, hpublished⟩ := hmoored.handle index hindex
  have hresume := (hmoored.saved published hpublished).resume_succeeds
    (hmoored.sound.saved published hpublished).reaches
  have hname := generationName_ne nanos process counter
  refine ⟨ChainIndex.verifyIntegrity_succeeds hname hhonest, fun report hreport => ?_⟩
  have haudit : audit = (.ok report, audit.2) := Prod.ext hreport rfl
  obtain ⟨expected, issues, hbuild, hissues, hparts⟩ :=
    ChainIndex.verifyIntegrity_eq_ok hhonest haudit
  obtain ⟨hmirrors, hcurrent, k, hdense, hfinished⟩ := State.build_mirrors hname hhonest hbuild
  obtain ⟨hwhole, hkept, horigin⟩ := State.build_retains hname hhonest hbuild
  obtain ⟨-, hfound⟩ := State.variantIssues_spec hcurrent hhonest hissues
  rw [ChainIndex.comparison_eq damage expected ⟨w.saved, index⟩ hpublished hresume] at hparts
  have hlocations : ∀ issue, issue ∈ issues →
      issue.location ∈ expected.tail.chain.recordLocations issue.operation := fun issue hissue =>
    (State.mem_variants hmirrors.tidy).mp ((hfound issue).mp hissue).1
  have hrecords : ∀ id reference, (∃ issue ∈ issues, issue.operation = id
        ∧ issue.reference = reference)
      ↔ ∃ encoded, ∃ op : Op, w.directory.Holds encoded ∧ Schema.decodeOp encoded = .ok op
        ∧ Schema.id op = id ∧ reference ∈ IndexSchema.references op
        ∧ w.truth reference ≠ .available := by
    intro id reference
    constructor
    · rintro ⟨issue, hissue, rfl, rfl⟩
      obtain ⟨encoded, op, hholds, hop, hid, hread⟩ := horigin _ _ (hlocations issue hissue)
      obtain ⟨-, ⟨other, hother, href⟩, hstate, hlacking⟩ := (hfound issue).mp hissue
      rw [hread] at hother
      cases hother
      exact ⟨encoded, op, hholds, hop, hid, href, hstate ▸ hlacking⟩
    · rintro ⟨encoded, op, hholds, hop, rfl, href, hlacking⟩
      obtain ⟨location, hlocation, hread⟩ := hkept encoded op hholds hop
      exact ⟨⟨Schema.id op, location, reference, w.truth reference⟩, (hfound _).mpr
        ⟨(State.mem_variants hmirrors.tidy).mpr hlocation, ⟨op, hread, href⟩, rfl, hlacking⟩,
        rfl, rfl⟩
  have hclean : issues = [] ↔ ∀ encoded, ∀ op : Op, w.directory.Holds encoded →
      Schema.decodeOp encoded = .ok op → ∀ reference ∈ IndexSchema.references op,
        w.truth reference = .available := by
    constructor
    · rintro rfl encoded op hholds hop reference href
      by_contra hlacking
      obtain ⟨issue, hissue, -⟩ :=
        (hrecords (Schema.id op) reference).mpr ⟨encoded, op, hholds, hop, rfl, href, hlacking⟩
      cases hissue
    · intro hall
      refine List.eq_nil_iff_forall_not_mem.mpr fun issue hissue => ?_
      obtain ⟨encoded, op, hholds, hop, -, href, hlacking⟩ :=
        (hrecords issue.operation issue.reference).mp ⟨issue, hissue, rfl, rfl⟩
      exact hlacking (hall encoded op hholds hop _ href)
  subst hparts
  refine ⟨hrecords, fun issue hissue => ?_, ?_, ?_, ?_⟩
  · obtain ⟨encoded, op, hholds, hop, hid, hread⟩ := horigin _ _ (hlocations issue hissue)
    obtain ⟨-, ⟨other, hother, href⟩, hstate, -⟩ := (hfound issue).mp hissue
    rw [hread] at hother
    cases hother
    exact ⟨hstate, op, hread, hid, href⟩
  · cases damage <;> rfl
  · rintro rfl before hbefore hrefreshes
    obtain ⟨hsaved, hfresh⟩ := hrefreshes.fresh hbefore hindex
    rw [hpublished] at hsaved
    cases hsaved
    have hmatches := hfresh.matches_build hname hhonest hbuild
    exact Bool.and_eq_true_iff.mpr ⟨decide_eq_true hmatches, decide_eq_true hmatches⟩
  · cases damage with
    | none =>
      rw [← hwhole, ← hclean]
      simp [IntegrityReport.isClean, ChainIndex.errorText, and_assoc]
    | some error => exact iff_of_false Bool.false_ne_true fun hall => Bool.false_ne_true hall.1

end Setting
end EditChain.Index

namespace EditChain.Index.Setting

open Core Fallible Store

section Witness

local instance auditedSchema : Schema OpId := messageSchema
local instance auditedChecksum : Checksum := crc32cChecksum
local instance auditedIndex : IndexSchema OpId ℕ ℕ := rebuiltIndex

noncomputable local instance auditedMatches :
    ∀ state expected : State OpId ℕ ℕ, Decidable (state.Matches expected) :=
  fun _ _ => Classical.propDecidable _

/-- The first message can be read, and content is answered. -/
lemma healthy_message : Healthy (oneSegment messageFrame 2) unarrived := by
  refine ⟨rfl, ⟨1, by decide, fun n => ?_, fun n e => ?_⟩, fun _ => ⟨.missing, rfl⟩⟩
  · rw [getElem?_oneSegment]
    split <;> simp <;> omega
  · cases hfile : (oneSegment messageFrame 2).segments[n]? with
    | none =>
      rw [Directory.bytesAt_of_none hfile, UnitReader.run_nil]
      nofun
    | some file =>
      rw [getElem?_oneSegment] at hfile
      split at hfile
      · next hzero =>
        subst hzero
        have hending :
            (pages.run none ((oneSegment messageFrame 2).bytesAt 0)).ending = .clean := by
          decide +kernel
        rw [hending]
        nofun
      · cases hfile

/-- The handle knows nothing of the message yet, but the audit reports its missing content. -/
theorem audit_exact_message :
    ∃ (w : Setting OpId ℕ ℕ) (index : ChainIndex OpId ℕ ℕ) (report : IntegrityReport ℕ),
      Run "/chain" { directory := Directory.empty, truth := fun _ => .missing } w
        ∧ w.handle = some index
        ∧ ((ChainIndex.verifyIntegrity answering "/chain" (generationName 4 5 6) w.directory none
          ⟨w.saved, index⟩).exec unarrived).1 = .ok report
        ∧ (∃ issue ∈ report.contentIssues, issue.operation = messageId ∧ issue.reference = 0)
        ∧ report.isClean = false := by
  have hhonest : Honest (fun _ => ContentState.missing) unarrived := .of_eq fun _ => rfl
  have hopened : emptyOpened.1.toOption.isSome = true := rfl
  obtain ⟨index, hindex⟩ := Option.isSome_iff_exists.mp hopened
  have hrun : Run "/chain" { directory := Directory.empty, truth := fun _ => .missing }
      (⟨oneSegment messageFrame 2, fun _ => .missing, emptyOpened.2, emptyOpened.1.toOption⟩
        : Setting OpId ℕ ℕ) :=
    (Relation.ReflTransGen.single (.openIndex 1 2 3 (messageAround Directory.empty)
      (messageAround Directory.empty) rfl rfl rfl hhonest hhonest rfl)).tail
        (.grow (.of_empty _) fun _ h => h)
  have hrecords : (oneSegment messageFrame 2).encodedAt 0 = [messageV1] := by decide +kernel
  have hholds : (oneSegment messageFrame 2).Holds messageV1 := ⟨0, by simp [hrecords]⟩
  have hop : Schema.decodeOp messageV1 = .ok messageId := by decide +kernel
  obtain ⟨hsucceeds, hexact⟩ := audit_exact hrun hindex hhonest 4 5 6 none
  obtain ⟨report, hreport⟩ : ∃ report, ((ChainIndex.verifyIntegrity answering "/chain"
      (generationName 4 5 6) (oneSegment messageFrame 2) none ⟨emptyOpened.2, index⟩).exec
        unarrived).1 = .ok report := by
    have hok := hsucceeds healthy_message
    generalize ((ChainIndex.verifyIntegrity answering "/chain"
      (generationName 4 5 6) (oneSegment messageFrame 2) none ⟨emptyOpened.2, index⟩).exec
        unarrived).1 = result at hok ⊢
    cases result with
    | error error => cases hok
    | ok report => exact ⟨report, rfl⟩
  obtain ⟨hissues, -, -, -, hclean⟩ := hexact report hreport
  refine ⟨_, index, report, hrun, hindex, hreport, (hissues messageId 0).mpr ⟨messageV1, messageId,
    hholds, hop, rfl, List.mem_cons_self, nofun⟩, Bool.eq_false_iff.mpr fun htrue => ?_⟩
  exact absurd ((hclean.mp htrue).2.2 messageV1 messageId hholds hop 0 List.mem_cons_self) nofun

end Witness
end EditChain.Index.Setting
