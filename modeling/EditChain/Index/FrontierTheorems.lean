import EditChain.Store.Indexed
import EditChain.Store.ResumptionTheorems
import EditChain.Store.TailTheorems

/-!
# What an indexed frontier reports

A drain of the frontier reports, identity by identity, how the admission storage of the index
changed: what it adds is new and can be read back at its location, what it retracts is not accepted
any more, and everything else is as it was. A drain that reads no byte reports nothing.
-/

namespace EditChain.Store

open Core Fallible ByteString
open Std (ExtTreeMap ExtTreeSet)

variable {Op : Type} [Schema Op] [Checksum]

/-! ## Deltas -/

/-- A delta tells how the entries of an indexed chain changed. -/
structure ChainDelta.Tracks (d : Directory) (delta : ChainDelta Op)
    (before after : IndexedChain Op) : Prop where
  added : ∀ (id : OpId) op location, delta.added[id]? = some (op, location) →
    before.entries[id]? = none ∧ after.entries[id]? = some ⟨location, some op⟩
      ∧ readOpAt d location = .ok op ∧ Schema.id op = id
  removed : ∀ id ∈ delta.removed, ∃ entry, after.entries[id]? = some entry ∧ entry.accepted = none
  kept : ∀ id : OpId, id ∉ delta.removed → delta.added[id]? = none →
    after.entries[id]? = before.entries[id]?
  seen : ∀ id : OpId, before.entries[id]?.isSome → after.entries[id]?.isSome

omit [Schema Op] [Checksum] in
/-- What two deltas remove together. -/
lemma Tail.mem_removed_fold (x y : ChainDelta Op) (id : OpId) :
    id ∈ (Tail.fold x y).removed ↔ id ∈ y.removed ∨ id ∈ x.removed := by
  show id ∈ y.removed.toList.foldl _ x.removed ↔ _
  rw [ChainDelta.mem_foldl_insert, ExtTreeSet.mem_toList]

omit [Schema Op] [Checksum] in
/-- What two deltas add together. -/
lemma Tail.getElem?_added_fold (x y : ChainDelta Op) (id : OpId) : (Tail.fold x y).added[id]?
    = if id ∈ y.removed then none else y.added[id]?.or x.added[id]? := by
  show (y.removed.toList.foldl _ (y.added.toList.foldl _ x.added))[id]? = _
  rw [ChainDelta.mem_foldl_erase, ChainDelta.getElem?_foldl_insert]
  simp only [ExtTreeSet.mem_toList]

namespace ChainDelta

variable {d : Directory}

lemma Tracks.refl (chain : IndexedChain Op) : ({} : ChainDelta Op).Tracks d chain chain where
  added id op location h := by simp at h
  removed id h := by simp at h
  kept _ _ _ := rfl
  seen _ h := h

/-- Only the entries matter. -/
lemma Tracks.of_eq {x y : ChainDelta Op} {before after after' : IndexedChain Op}
    (h : x.Tracks d before after) (hadded : y.added = x.added) (hremoved : y.removed = x.removed)
    (hentries : after'.entries = after.entries) : y.Tracks d before after' := by
  obtain ⟨added, removed, work⟩ := y
  cases hadded
  cases hremoved
  refine ⟨?_, ?_, ?_, ?_⟩
  · rw [hentries]
    exact h.added
  · rw [hentries]
    exact h.removed
  · rw [hentries]
    exact h.kept
  · rw [hentries]
    exact h.seen

/-- What two deltas together tell. -/
lemma Tracks.fold {x y : ChainDelta Op} {a b c : IndexedChain Op} (hx : x.Tracks d a b)
    (hy : y.Tracks d b c) : (Tail.fold x y).Tracks d a c := by
  have hremoved := Tail.mem_removed_fold x y
  have hadded := Tail.getElem?_added_fold x y
  refine ⟨fun id op location h => ?_, fun id h => ?_, fun id hnr hna => ?_,
    fun id h => hy.seen id (hx.seen id h)⟩
  · rw [hadded] at h
    split at h
    · cases h
    · next hkept =>
      cases hnew : y.added[id]? with
      | some found =>
        rw [hnew] at h
        cases h
        obtain ⟨hfresh, hafter⟩ := hy.added id op location hnew
        refine ⟨?_, hafter⟩
        -- what was seen before is still seen, so a fresh identity was fresh all along
        cases hold : a.entries[id]? with
        | none => rfl
        | some entry =>
          have hseen := hx.seen id (by rw [hold]; rfl)
          rw [hfresh] at hseen
          cases hseen
      | none =>
        rw [hnew, Option.none_or] at h
        rw [hy.kept id hkept hnew]
        exact hx.added id op location h
  · rcases (hremoved id).mp h with h | h
    · exact hy.removed id h
    · by_cases hagain : id ∈ y.removed
      · exact hy.removed id hagain
      · obtain ⟨entry, hentry, hnone⟩ := hx.removed id h
        cases hnew : y.added[id]? with
        | some found =>
          have hfresh := (hy.added id found.1 found.2 hnew).1
          rw [hentry] at hfresh
          cases hfresh
        | none =>
          rw [hy.kept id hagain hnew]
          exact ⟨entry, hentry, hnone⟩
  · rw [hremoved, not_or] at hnr
    rw [hadded, if_neg hnr.1, Option.or_eq_none_iff] at hna
    rw [hy.kept id hnr.1 hna.1, hx.kept id hnr.2 hna.2]

omit [Schema Op] in
/-- What an admission does to the entries. -/
lemma admitRecord_cases [Schema Op] {chain chain' : IndexedChain Op} {op : Op} {encoded : Bytes}
    {location : OpRecordLocation} {admission : Admission}
    (h : (IndexedChain.admitRecord d op encoded location).exec chain = (.ok admission, chain')) :
    (admission = .accepted ∧ chain.entries[Schema.id op]? = none
        ∧ chain'.entries = chain.entries.insert (Schema.id op) ⟨location, some op⟩)
      ∨ (admission = .duplicate ∧ chain'.entries = chain.entries)
      ∨ (admission = .conflict ∧ ∃ entry, chain.entries[Schema.id op]? = some entry
        ∧ chain'.entries
          = chain.entries.insert (Schema.id op) { entry with accepted := none }) := by
  unfold IndexedChain.admitRecord at h
  rw [exec_bind_of_ok (exec_get chain)] at h
  dsimp only at h
  obtain ⟨found, same, hclassify, h⟩ := exec_bind_eq_ok.mp h
  obtain ⟨hverdict, rfl⟩ := Prod.mk.inj hclassify
  cases found with
  | accepted =>
    cases h
    refine .inl ⟨rfl, ?_, rfl⟩
    change chain.classify d (Schema.id op) encoded = .ok .accepted at hverdict
    unfold IndexedChain.classify at hverdict
    split at hverdict
    · next hnone => exact hnone
    · obtain ⟨known, -, hverdict⟩ := bind_eq_ok.mp hverdict
      split at hverdict <;> cases hverdict
  | duplicate =>
    cases h
    exact .inr (.inl ⟨rfl, rfl⟩)
  | conflict =>
    dsimp only at h
    split at h
    · cases h
    · next entry hentry =>
      cases h
      exact .inr (.inr ⟨rfl, entry, hentry, rfl⟩)

/-- One more admission. -/
lemma Tracks.admitted {delta : ChainDelta Op} {before chain chain' : IndexedChain Op}
    (h : delta.Tracks d before chain) {op : Op} {encoded : Bytes} {location : OpRecordLocation}
    (hread : readOpAt d location = .ok op) {admission : Admission}
    (hadmitted : (IndexedChain.admitRecord d op encoded location).exec chain
      = (.ok admission, chain')) :
    (Tail.note delta op location admission).Tracks d before chain' := by
  rcases admitRecord_cases hadmitted with ⟨rfl, hnone, hentries⟩ | ⟨rfl, hentries⟩ |
    ⟨rfl, old, hold, hentries⟩
  · have hfresh : before.entries[Schema.id op]? = none := by
      cases hbefore : before.entries[Schema.id op]? with
      | none => rfl
      | some entry =>
        have hseen := h.seen (Schema.id op) (by rw [hbefore]; rfl)
        rw [hnone] at hseen
        cases hseen
    have hlookup : ∀ id : OpId, chain'.entries[id]?
        = if Schema.id op = id then some ⟨location, some op⟩ else chain.entries[id]? := by
      intro id
      rw [hentries, ExtTreeMap.getElem?_insert]
      simp
    refine ⟨fun id found place hfound => ?_, fun id hid => ?_, fun id hnr hna => ?_,
      fun id hid => ?_⟩
    · change (delta.added.insert (Schema.id op) (op, location))[id]? = some (found, place) at hfound
      rw [ExtTreeMap.getElem?_insert] at hfound
      by_cases hsame : Schema.id op = id
      · subst hsame
        rw [if_pos (by simp)] at hfound
        cases hfound
        rw [hlookup, if_pos rfl]
        exact ⟨hfresh, rfl, hread, rfl⟩
      · rw [if_neg (by simpa using hsame)] at hfound
        rw [hlookup, if_neg hsame]
        exact h.added id found place hfound
    · obtain ⟨entry, hentry, hinert⟩ := h.removed id hid
      have hne : Schema.id op ≠ id := by
        rintro rfl
        rw [hnone] at hentry
        cases hentry
      rw [hlookup, if_neg hne]
      exact ⟨entry, hentry, hinert⟩
    · change (delta.added.insert (Schema.id op) (op, location))[id]? = none at hna
      rw [ExtTreeMap.getElem?_insert] at hna
      by_cases hsame : Schema.id op = id
      · rw [if_pos (by simpa using hsame)] at hna
        cases hna
      · rw [if_neg (by simpa using hsame)] at hna
        rw [hlookup, if_neg hsame]
        exact h.kept id hnr hna
    · rw [hlookup]
      by_cases hsame : Schema.id op = id
      · rw [if_pos hsame]
        rfl
      · rw [if_neg hsame]
        exact h.seen id hid
  · exact h.of_eq rfl rfl hentries
  · have hlookup : ∀ id : OpId, chain'.entries[id]?
        = if Schema.id op = id then some { old with accepted := none } else chain.entries[id]? := by
      intro id
      rw [hentries, ExtTreeMap.getElem?_insert]
      simp
    refine ⟨fun id found place hfound => ?_, fun id hid => ?_, fun id hnr hna => ?_,
      fun id hid => ?_⟩
    · change (delta.added.erase (Schema.id op))[id]? = some (found, place) at hfound
      rw [ExtTreeMap.getElem?_erase] at hfound
      by_cases hsame : Schema.id op = id
      · rw [if_pos (by simpa using hsame)] at hfound
        cases hfound
      · rw [if_neg (by simpa using hsame)] at hfound
        rw [hlookup, if_neg hsame]
        exact h.added id found place hfound
    · rw [hlookup]
      by_cases hsame : Schema.id op = id
      · rw [if_pos hsame]
        exact ⟨_, rfl, rfl⟩
      · rw [if_neg hsame]
        have hother : id ∈ delta.removed.insert (Schema.id op) := hid
        rw [ExtTreeSet.mem_insert, Std.compare_eq_iff_eq] at hother
        exact h.removed id (hother.resolve_left hsame)
    · have hother : id ∉ delta.removed.insert (Schema.id op) := hnr
      rw [ExtTreeSet.mem_insert, Std.compare_eq_iff_eq, not_or] at hother
      change (delta.added.erase (Schema.id op))[id]? = none at hna
      rw [ExtTreeMap.getElem?_erase, if_neg (by simpa using hother.1)] at hna
      rw [hlookup, if_neg hother.1]
      exact h.kept id hother.2 hna
    · rw [hlookup]
      by_cases hsame : Schema.id op = id
      · rw [if_pos hsame]
        rfl
      · rw [if_neg hsame]
        exact h.seen id hid

end ChainDelta

/-! ## Polls and drains -/

namespace Tail

open ChainDelta

variable {d : Directory}

/-- A poll that reads no byte reports nothing. -/
def Idles (delta : ChainDelta Op) : Prop :=
  delta.work.bytesRead = 0 → delta.added = ∅ ∧ delta.removed = ∅

/-- What can be told of a drain by going through its admissions. -/
structure Tells (d : Directory)
    (T : ChainDelta Op → IndexedChain Op → IndexedChain Op → Prop) : Prop where
  refl : ∀ chain, T {} chain chain
  fold : ∀ {x y a b c}, T x a b → T y b c → T (Tail.fold x y) a c
  of_eq : ∀ {x y before after after'}, T x before after → y.added = x.added →
    y.removed = x.removed → after'.entries = after.entries →
    after'.conflicts = after.conflicts → T y before after'
  admitted : ∀ {delta before chain chain' op encoded location admission}, T delta before chain →
    readOpAt d location = .ok op →
    (IndexedChain.admitRecord d op encoded location).exec chain = (.ok admission, chain') →
    T (note delta op location admission) before chain'

section Tells

variable {T : ChainDelta Op → IndexedChain Op → IndexedChain Op → Prop}

/-- One complete record of a slice. -/
lemma admitOne_tells (hT : Tells d T) {record : RecordRef} {delta delta' : ChainDelta Op}
    {before : IndexedChain Op} {tail tail' : Tail (IndexedChain Op)} {file : SegmentFile}
    {limit : ℕ} (hfile : d.segments[tail.segment]? = some file)
    (hlies : record.Lies ((file.bytes.drop tail.offset).take limit))
    (h : T delta before tail.chain)
    (hexec : (admitOne d record delta).exec tail = (.ok delta', tail')) :
    T delta' before tail'.chain ∧ delta'.work.bytesRead = delta.work.bytesRead
      ∧ tail' = { tail with chain := tail'.chain } := by
  unfold admitOne at hexec
  split at hexec
  · cases hexec
    exact ⟨hT.of_eq h rfl rfl rfl rfl, rfl, rfl⟩
  · next op hop =>
    rw [exec_bind_of_ok (exec_get tail)] at hexec
    dsimp only at hexec
    obtain ⟨admission, after, hadmitted, hexec⟩ := exec_bind_eq_ok.mp hexec
    cases hexec
    unfold onChain at hadmitted
    rw [exec_zoom] at hadmitted
    obtain ⟨hadmission, rfl⟩ := Prod.mk.inj hadmitted
    have hread := readOpAt_of_lies hfile hlies hop
    have hcounted : T { delta with work := { delta.work with
        recordsDecoded := delta.work.recordsDecoded + 1 } } before tail.chain :=
      hT.of_eq h rfl rfl rfl rfl
    refine ⟨hT.admitted hcounted hread (Prod.ext hadmission rfl), ?_, rfl⟩
    cases admission <;> rfl

lemma admitRecords_tells (hT : Tells d T) {records : List RecordRef} {delta delta' : ChainDelta Op}
    {before : IndexedChain Op} {tail tail' : Tail (IndexedChain Op)} {file : SegmentFile}
    {limit : ℕ} (hfile : d.segments[tail.segment]? = some file)
    (hlies : ∀ record ∈ records, record.Lies ((file.bytes.drop tail.offset).take limit))
    (h : T delta before tail.chain)
    (hexec : (admitRecords d records delta).exec tail = (.ok delta', tail')) :
    T delta' before tail'.chain ∧ delta'.work.bytesRead = delta.work.bytesRead
      ∧ (records = [] → delta' = delta) := by
  induction records generalizing delta tail with
  | nil =>
    cases hexec
    exact ⟨h, rfl, fun _ => rfl⟩
  | cons record records ih =>
    rw [admitRecords] at hexec
    obtain ⟨delta₁, tail₁, hone, hexec⟩ := exec_bind_eq_ok.mp hexec
    obtain ⟨h₁, hwork₁, htail₁⟩ := admitOne_tells hT hfile (hlies record (by simp)) h hone
    have hsegment : tail₁.segment = tail.segment := by rw [htail₁]
    have hoffset : tail₁.offset = tail.offset := by rw [htail₁]
    obtain ⟨hrest, hwork, -⟩ := ih (by rw [hsegment]; exact hfile)
      (by
        rw [hoffset]
        exact fun r hr => hlies r (List.mem_cons_of_mem _ hr)) h₁ hexec
    exact ⟨hrest, hwork.trans hwork₁, nofun⟩

/-- The complete records of a slice can be read back. -/
lemma completeRecords_lies {bytes : Bytes} {page : Option UInt32} {records : List RecordRef}
    (h : completeRecords (PageScanner.resume bytes page).items.1 = .ok records) :
    (∀ record ∈ records, record.Lies bytes) ∧ (bytes = [] → records = []) := by
  constructor
  · have hall : ∀ items : List (Except ScanError ScanItem), ∀ found,
        completeRecords items = .ok found → ∀ record ∈ found, .ok (.record record) ∈ items := by
      intro items
      induction items with
      | nil =>
        intro found hfound record hrecord
        cases hfound
        cases hrecord
      | cons item items ih =>
        intro found hfound record hrecord
        cases item with
        | error error =>
          rw [completeRecords] at hfound
          split at hfound
          · cases hfound
            cases hrecord
          · cases hfound
        | ok item =>
          cases item with
          | page sequence offset =>
            exact List.mem_cons_of_mem _ (ih found hfound record hrecord)
          | record first =>
            rw [completeRecords] at hfound
            obtain ⟨rest, hrest, hfound⟩ := bind_eq_ok.mp hfound
            cases hfound
            rcases List.mem_cons.mp hrecord with rfl | hrecord
            · exact List.mem_cons_self ..
            · exact List.mem_cons_of_mem _ (ih rest hrest record hrecord)
    intro record hrecord
    exact PageScanner.collect_lies (hall _ _ h record hrecord)
  · rintro rfl
    have hitems : (PageScanner.resume [] page).items.1 = [] := by
      unfold PageScanner.items
      rw [PageScanner.collect, PageScanner.next, if_pos (.inr rfl)]
    rw [hitems] at h
    cases h
    rfl

/-- The complete records of the frontier slice. -/
lemma scan_tells (hT : Tells d T) {delta delta' : ChainDelta Op} {before : IndexedChain Op}
    {tail tail' : Tail (IndexedChain Op)} {partly : Bool} (h : T delta before tail.chain)
    (hexec : (scan d (tail.readFrontier d) delta).exec tail = (.ok (partly, delta'), tail')) :
    T delta' before tail'.chain ∧ delta'.work.bytesRead = delta.work.bytesRead
      ∧ (tail.readFrontier d = [] → delta' = delta) := by
  unfold scan at hexec
  rw [exec_bind_of_ok (exec_get tail)] at hexec
  dsimp only at hexec
  obtain ⟨records, same, hrecords, hexec⟩ := exec_bind_eq_ok.mp hexec
  obtain ⟨hcomplete, rfl⟩ := Prod.mk.inj hrecords
  obtain ⟨delta₁, tail₁, hadmitted, hexec⟩ := exec_bind_eq_ok.mp hexec
  cases hexec
  obtain ⟨hlies, hnone⟩ := completeRecords_lies hcomplete
  cases hfile : d.segments[tail.segment]? with
  | none =>
    have hempty : tail.readFrontier d = [] := by
      unfold readFrontier
      rw [hfile]
    rw [hnone hempty] at hadmitted
    cases hadmitted
    exact ⟨h, rfl, fun _ => rfl⟩
  | some file =>
    have hslice : tail.readFrontier d = (file.bytes.drop tail.offset).take maxFrameBytes := by
      unfold readFrontier
      rw [hfile]
    rw [hslice] at hlies
    obtain ⟨htells, hwork, hsame⟩ := admitRecords_tells hT hfile hlies h hadmitted
    exact ⟨htells, hwork, fun hempty => hsame (hnone hempty)⟩

/-- One slice of the frontier file. -/
lemma admitFrontier_tells (hT : Tells d T) {metadata : FileStamp} {delta delta' : ChainDelta Op}
    {before : IndexedChain Op} {tail tail' : Tail (IndexedChain Op)}
    (h : T delta before tail.chain) (hidles : Idles delta)
    (hexec : (admitFrontier d metadata (tail.readFrontier d) delta).exec tail
      = (.ok delta', tail')) :
    T delta' before tail'.chain ∧ Idles delta' := by
  unfold admitFrontier at hexec
  dsimp only at hexec
  rw [exec_bind_of_ok (exec_get tail)] at hexec
  obtain ⟨⟨partly, delta₁⟩, tail₁, hscan, hexec⟩ := exec_bind_eq_ok.mp hexec
  cases hexec
  have hcounted : T { delta with work := { delta.work with
      bytesRead := delta.work.bytesRead + (tail.readFrontier d).length } } before tail.chain :=
    hT.of_eq h rfl rfl rfl rfl
  obtain ⟨htells, hwork, hsame⟩ := scan_tells hT hcounted hscan
  refine ⟨?_, fun hzero => ?_⟩
  · apply hT.of_eq htells rfl rfl
    · show IndexedChain.entries (if _ then _ else _) = _
      split <;> rfl
    · show IndexedChain.conflicts (if _ then _ else _) = _
      split <;> rfl
  · rw [hwork] at hzero
    have hempty : (tail.readFrontier d).length = 0 := by
      have hsum : delta.work.bytesRead + (tail.readFrontier d).length = 0 := hzero
      omega
    rw [hsame (List.length_eq_zero_iff.mp hempty)]
    apply hidles
    have hsum : delta.work.bytesRead + (tail.readFrontier d).length = 0 := hzero
    omega

lemma pollLoop_tells (hT : Tells d T) (fuel : ℕ) {delta delta' : ChainDelta Op}
    {before : IndexedChain Op}
    {tail tail' : Tail (IndexedChain Op)} (h : T delta before tail.chain)
    (hidles : Idles delta) (hexec : (pollLoop d fuel delta).exec tail = (.ok delta', tail')) :
    T delta' before tail'.chain ∧ Idles delta' := by
  induction fuel generalizing delta tail with
  | zero =>
    cases hexec
    exact ⟨h, hidles⟩
  | succ fuel ih =>
    rcases pollLoop_eq_ok hexec with ⟨-, rfl, rfl⟩ | ⟨metadata, seen, delta₁, -, hfirst, hrest⟩
    · exact ⟨h, hidles⟩
    · have hseen := admitFrontier_tells hT h hidles hfirst
      rcases hrest with ⟨-, rfl, rfl⟩ | ⟨next, -, -, ⟨-, rfl, rfl⟩ | ⟨-, hexec⟩⟩
      · exact hseen
      · exact hseen
      · apply ih _ hseen.2 hexec
        exact hseen.1

omit [Schema Op] [Checksum] in
lemma Idles.fold {x y : ChainDelta Op} (hx : Idles x) (hy : Idles y) : Idles (fold x y) := by
  intro hzero
  have hsum : x.work.bytesRead + y.work.bytesRead = 0 := hzero
  obtain ⟨hxa, hxr⟩ := hx (by omega)
  obtain ⟨hya, hyr⟩ := hy (by omega)
  unfold Tail.fold
  rw [hxa, hxr, hya, hyr]
  exact ⟨rfl, rfl⟩

/-- A poll reports what its admissions do. -/
lemma poll_tells (hT : Tells d T) {delta : ChainDelta Op} {tail tail' : Tail (IndexedChain Op)}
    (hexec : (poll d).exec tail = (.ok delta, tail')) :
    T delta tail.chain tail'.chain ∧ Idles delta :=
  pollLoop_tells hT _ (hT.refl tail.chain) (fun _ => ⟨rfl, rfl⟩) hexec

lemma drainLoop_tells (hT : Tells d T) (fuel : ℕ) {result delta : ChainDelta Op}
    {before : IndexedChain Op} {tail tail' : Tail (IndexedChain Op)}
    (h : T result before tail.chain)
    (hidles : Idles result)
    (hexec : (drainLoop d fuel result).exec tail = (.ok delta, tail')) :
    T delta before tail'.chain ∧ Idles delta := by
  induction fuel generalizing result tail with
  | zero =>
    cases hexec
    exact ⟨h, hidles⟩
  | succ fuel ih =>
    obtain ⟨delta₁, polled, hpoll, hrest⟩ := drainLoop_eq_ok hexec
    obtain ⟨hpolled, hidles₁⟩ := poll_tells hT hpoll
    rcases hrest with ⟨-, rfl, rfl⟩ | ⟨-, hexec⟩
    · exact ⟨hT.fold h hpolled, hidles.fold hidles₁⟩
    · exact ih (hT.fold h hpolled) (hidles.fold hidles₁) hexec

/-- A drain reports what its admissions do, and nothing if it reads nothing. -/
lemma drain_tells (hT : Tells d T) {delta : ChainDelta Op} {tail tail' : Tail (IndexedChain Op)}
    (hexec : (drain d).exec tail = (.ok delta, tail')) :
    T delta tail.chain tail'.chain ∧ Idles delta :=
  drainLoop_tells hT _ (hT.refl tail.chain) (fun _ => ⟨rfl, rfl⟩) hexec

end Tells

lemma tells_tracks : Tells d (ChainDelta.Tracks d : ChainDelta Op → _ → _ → Prop) where
  refl := Tracks.refl
  fold := Tracks.fold
  of_eq h hadded hremoved hentries _ := h.of_eq hadded hremoved hentries
  admitted h hread hadmitted := h.admitted hread hadmitted

/-- A poll reports how the entries changed. -/
lemma poll_tracks {delta : ChainDelta Op} {tail tail' : Tail (IndexedChain Op)}
    (hexec : (poll d).exec tail = (.ok delta, tail')) :
    delta.Tracks d tail.chain tail'.chain ∧ Idles delta :=
  poll_tells tells_tracks hexec

/-- A drain reports how the entries changed, and nothing if it reads nothing. -/
lemma drain_tracks {delta : ChainDelta Op} {tail tail' : Tail (IndexedChain Op)}
    (hexec : (drain d).exec tail = (.ok delta, tail')) :
    delta.Tracks d tail.chain tail'.chain ∧ Idles delta :=
  drain_tells tells_tracks hexec

end Tail

end EditChain.Store
