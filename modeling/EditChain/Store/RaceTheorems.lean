import Mathlib.Logic.Function.Iterate
import EditChain.Store.Race
import EditChain.Store.SegmentTheorems
import EditChain.Store.TailTheorems

/-!
# No record is skipped, unless a segment is left too early

A reader that tests for the next segment after it has read the current one may leave records behind
that a writer appended in between. It loses nothing as long as the current segment holds no complete
item beyond its offset when the next segment is found.
-/

namespace EditChain.Store

open Core Fallible UnitReader Tail Directory

variable {Op : Type} [Schema Op] [Checksum]

/-! ## Steps and polls -/

namespace LiveReader

/-- On a directory that does not change, the steps of a live reader are those of a poll. -/
lemma exists_steps_pollLoop (d : Directory) (fuel : ℕ) {delta : ChainDelta Op}
    {before : CanonicalChain Op} {tail : Tail (CanonicalChain Op)}
    (hdelta : delta.Accounts before tail.chain) :
    ∃ n, (step d)^[n] ⟨tail, .ready⟩ = ⟨((pollLoop d fuel delta).exec tail).2, .ready⟩ := by
  induction fuel generalizing tail delta with
  | zero => exact ⟨0, rfl⟩
  | succ fuel ih =>
    unfold pollLoop
    rw [exec_bind_of_ok (exec_get tail), exec_bind, exec_lift]
    cases hopen : tail.openFrontier d with
    | error e => exact ⟨0, rfl⟩
    | ok found =>
      cases found with
      | none => exact ⟨0, rfl⟩
      | some metadata =>
        -- open, read and scan
        have hload : (step d)^[2] ⟨tail, .ready⟩ = ⟨tail, .loaded metadata (tail.readFrontier d)⟩ := by
          show step d (step d ⟨tail, .ready⟩) = _
          simp [step, hopen]
        have hempty := ChainDelta.Accounts.refl tail.chain
        by_cases hbad : ∃ e, (pages.run tail.page (tail.readFrontier d)).ending = .bad e
        · obtain ⟨e, hbad⟩ := hbad
          obtain ⟨error, hexec⟩ :=
            exec_admitFrontier_of_bad d metadata (tail.readFrontier d) delta tail hbad
          obtain ⟨error', hexec'⟩ :=
            exec_admitFrontier_of_bad d metadata (tail.readFrontier d) {} tail hbad
          refine ⟨3, ?_⟩
          rw [Function.iterate_succ_apply', hload]
          simp only
          rw [exec_bind_of_error hexec]
          simp [step, hexec']
        · have hgood := fun e he => hbad ⟨e, he⟩
          obtain ⟨delta₁, hexec, hdelta₁⟩ :=
            exec_admitFrontier d metadata (tail.readFrontier d) delta tail hdelta hgood
          obtain ⟨delta₂, hexec', -⟩ :=
            exec_admitFrontier d metadata (tail.readFrontier d) {} tail hempty hgood
          set seen := tail.admitted metadata (tail.readFrontier d)
          have hscan : (step d)^[3] ⟨tail, .ready⟩
              = ⟨seen, if tail.offset < seen.offset then .ready else .scanned⟩ := by
            rw [Function.iterate_succ_apply', hload]
            simp [step, hexec']
          simp only
          rw [exec_bind_of_ok hexec, exec_bind_of_ok (exec_get seen)]
          by_cases hmoved : tail.offset < seen.offset
          · rw [if_pos hmoved]
            refine ⟨3, ?_⟩
            rw [hscan, if_pos hmoved]
            rfl
          · rw [if_neg hmoved] at hscan ⊢
            rw [exec_bind, exec_lift]
            cases hnext : seen.nextSegment with
            | error e =>
              refine ⟨4, ?_⟩
              rw [Function.iterate_succ_apply', hscan]
              simp [step, hnext]
            | ok next =>
              simp only
              by_cases hnone : d.segments[next]? = none
              · refine ⟨4, ?_⟩
                rw [Function.iterate_succ_apply', hscan, if_pos hnone]
                simp [step, hnext, hnone]
              · rw [if_neg hnone, exec_bind_of_ok (exec_set _ seen)]
                have hkept : delta₁.Accounts before (seen.advance next).chain := hdelta₁
                obtain ⟨n, hrest⟩ := ih hkept
                refine ⟨n + 5, ?_⟩
                rw [Function.iterate_add_apply, Function.iterate_succ_apply',
                  Function.iterate_succ_apply', hscan]
                have hadvance : step d (step d ⟨seen, .scanned⟩) = ⟨seen.advance next, .ready⟩ := by
                  simp [step, hnext, hnone]
                rw [hadvance]
                exact hrest

/-- A poll of a directory that does not change is made of such steps. -/
theorem exists_steps_poll (d : Directory) (tail : Tail (CanonicalChain Op)) :
    ∃ n, (step d)^[n] ⟨tail, .ready⟩ = ⟨((poll d).exec tail).2, .ready⟩ :=
  exists_steps_pollLoop d _ (ChainDelta.Accounts.refl tail.chain)

end LiveReader

/-! ## The writer's side -/

/-- A directory of shapes is readable. -/
lemma Holds.readable {d : Directory} {shapes : List Shape} (h : Holds d shapes) :
    d.Readable shapes.length := by
  refine ⟨h.isSome, fun n e => ?_⟩
  cases hfile : d.segments[n]? with
  | none =>
    rw [bytesAt_of_none hfile]
    simp
  | some file =>
    have hbytes := h.segments n
    rw [hfile, Option.map_some] at hbytes
    obtain ⟨s, hs, hsbytes⟩ := Option.map_eq_some_iff.mp hbytes.symm
    rw [bytesAt_of_some hfile, ← hsbytes, (run_shape (h.valid s (List.mem_of_getElem? hs)) none).2]
    split <;> simp

/-- The chain after its writer has created the next segment. -/
def Chain.created (c : Chain) (sequence : ℕ) (file : SegmentFile) : Chain :=
  { c with directory.segments := c.directory.segments.insert sequence file }

/-- An empty segment is a segment without frames. -/
lemma Chain.Sound.created {c : Chain} {shapes : List Shape} (hc : c.Sound shapes)
    {store : SegmentStore} (hstore : c.store = some store)
    (hnone : c.directory.segments[store.nextSeq]? = none) (identity : ℕ × ℕ) (modified : ℕ) :
    (c.created store.nextSeq ⟨[], identity, modified⟩).Sound (shapes ++ [⟨[], []⟩])
      ∧ c.directory.Grows (c.created store.nextSeq ⟨[], identity, modified⟩).directory := by
  have hgood := hc.good hstore
  have hholds := hgood.holds
  have hbounded : store.nextSeq < sequenceLimit := hgood.bounded
  have hcurrent : shapes.length = store.nextSeq ∨ shapes.length = store.nextSeq + 1 := hgood.current
  have hlen : shapes.length = store.nextSeq := by
    have hnot : ¬ store.nextSeq < shapes.length := by
      rw [← hholds.isSome]
      simp [hnone]
    omega
  have hsegments : ∀ n : ℕ, (c.created store.nextSeq ⟨[], identity, modified⟩).directory.segments[n]?
      = if n = store.nextSeq then some ⟨[], identity, modified⟩ else c.directory.segments[n]? := by
    intro n
    show (c.directory.segments.insert store.nextSeq _)[n]? = _
    rw [Std.ExtTreeMap.getElem?_insert]
    by_cases heq : n = store.nextSeq
    · rw [if_pos (by simp [heq]), if_pos heq]
    · rw [if_neg (by simpa using Ne.symm heq), if_neg heq]
  refine ⟨?_, fun n file hfile => ?_, fun m n hmn hn => ?_⟩
  · unfold Chain.Sound
    rw [show (c.created store.nextSeq ⟨[], identity, modified⟩).store = some store from hstore]
    refine ⟨⟨fun n => ?_, fun s hs => ?_, ?_, hholds.marker, hholds.named, hholds.settled⟩, ?_,
      hbounded, hgood.locked, fun hneeds => ?_⟩
    · rw [hsegments]
      by_cases heq : n = store.nextSeq
      · rw [if_pos heq, List.getElem?_append_right (by omega), hlen, heq, Nat.sub_self]
        rfl
      · rw [if_neg heq, hholds.segments]
        by_cases hlt : n < shapes.length
        · rw [List.getElem?_append_left hlt]
        · rw [List.getElem?_eq_none (by omega), List.getElem?_eq_none (by simp; omega)]
    · rcases List.mem_append.mp hs with hs | hs
      · exact hholds.valid s hs
      · rw [List.mem_singleton.mp hs]
        exact ⟨by simp, Shape.torn_nil⟩
    · rw [List.length_append, hlen]
      show store.nextSeq + 1 ≤ sequenceLimit
      omega
    · rw [List.length_append, hlen]
      exact .inr rfl
    · have hready := hgood.ready hneeds
      unfold Ready at hready ⊢
      rw [List.getElem?_eq_none (by show shapes.length ≤ store.nextSeq; omega)] at hready
      rw [List.getElem?_append_right (by show shapes.length ≤ store.nextSeq; omega)]
      dsimp only [Chain.created]
      rw [hlen, Nat.sub_self]
      exact ⟨rfl, hready⟩
  · have hne : n ≠ store.nextSeq := by
      intro heq
      rw [heq, hnone] at hfile
      cases hfile
    refine ⟨file, ?_, .refl file⟩
    rw [hsegments, if_neg hne, hfile]
  · have hlt := (hholds.isSome n).mp (Option.isSome_iff_ne_none.mpr hn)
    rw [hsegments, if_neg (by omega)]

/-! ## The reader's side -/

namespace LiveReader

/-- What a reader between two of its steps relies on. -/
def Sound (d : Directory) (tail : Tail (CanonicalChain Op)) : Phase → Prop
  | .ready | .scanned => True
  | .opened metadata => ∃ file, d.segments[tail.segment]? = some file ∧ metadata.Saw file
  | .loaded metadata bytes =>
    (∃ file, d.segments[tail.segment]? = some file ∧ metadata.Saw file)
      ∧ bytes <+: (d.bytesAt tail.segment).drop tail.offset
  | .found next =>
    next = tail.segment + 1 ∧ d.segments[tail.segment + 1]? ≠ none ∧ Idle d tail

omit [Checksum] in
/-- A stamp stays valid while the directory grows. -/
lemma saw_grows {d d' : Directory} (hgrows : d.Grows d') {n : ℕ} {metadata : FileStamp}
    (h : ∃ file, d.segments[n]? = some file ∧ metadata.Saw file) :
    ∃ file, d'.segments[n]? = some file ∧ metadata.Saw file := by
  obtain ⟨file, hfile, hsaw⟩ := h
  obtain ⟨file', hfile', hgrown⟩ := hgrows.kept n file hfile
  exact ⟨file', hfile', hsaw.grown hgrown⟩

omit [Schema Op] in
/-- What a reader relies on is stable: whatever is written, it stays true. -/
lemma Sound.grows {d d' : Directory} {tail : Tail (CanonicalChain Op)} {phase : Phase}
    (h : Sound d tail phase) (hgrows : d.Grows d') : Sound d' tail phase := by
  cases phase with
  | ready => trivial
  | opened metadata => exact saw_grows hgrows h
  | loaded metadata bytes =>
    refine ⟨saw_grows hgrows h.1, h.2.trans ?_⟩
    obtain ⟨y, hy⟩ := hgrows.bytesAt tail.segment
    rw [← hy, List.drop_append]
    exact List.prefix_append _ _
  | scanned => trivial
  | found next =>
    obtain ⟨hnext, hexists, hidle⟩ := h
    have hbytes := hgrows.bytesAt_eq (Nat.lt_succ_self tail.segment) hexists
    refine ⟨hnext, ?_, ?_⟩
    · obtain ⟨file, hfile⟩ := Option.ne_none_iff_exists'.mp hexists
      obtain ⟨file', hfile', -⟩ := hgrows.kept _ file hfile
      simp [hfile']
    · unfold Idle
      rw [hbytes]
      exact hidle

/-- A step of the reader: it goes on following, provided that a segment it leaves is settled. -/
lemma step_follows {d : Directory} {k : ℕ} (hd : d.Readable k) {tail : Tail (CanonicalChain Op)}
    {phase : Phase} {tails : ℕ} (h : Follows d tail tails) (hphase : Sound d tail phase)
    (hsettled : phase = .scanned → d.segments[tail.segment + 1]? ≠ none → Idle d tail) :
    ∃ tails', Follows d (step d ⟨tail, phase⟩).tail tails'
      ∧ Sound d (step d ⟨tail, phase⟩).tail (step d ⟨tail, phase⟩).phase := by
  cases phase with
  | ready =>
    unfold step
    simp only
    rw [h.openFrontier]
    cases hfile : d.segments[tail.segment]? with
    | none => exact ⟨tails, h, trivial⟩
    | some file => exact ⟨tails, h, file, hfile, FileStamp.saw_read file⟩
  | opened metadata =>
    refine ⟨tails, h, hphase, ?_⟩
    obtain ⟨file, hfile, -⟩ := hphase
    show tail.readFrontier d <+: (d.bytesAt tail.segment).drop tail.offset
    unfold Tail.readFrontier
    rw [hfile, bytesAt_of_some hfile]
    exact List.take_prefix _ _
  | loaded metadata bytes =>
    obtain ⟨⟨file, hfile, hsaw⟩, hpart⟩ := hphase
    obtain ⟨delta, hexec, -⟩ := exec_admitFrontier d metadata bytes {} tail
      (ChainDelta.Accounts.refl tail.chain) (h.rest_sound hd hpart)
    refine ⟨retag tails tail.incomplete (tail.cutFlag metadata bytes), ?_, ?_⟩
    · unfold step
      simp only
      rw [hexec]
      exact h.admitted hfile hsaw hpart
    · unfold step
      simp only
      rw [hexec]
      simp only
      split <;> trivial
  | scanned =>
    refine ⟨tails, ?_, ?_⟩
    · unfold step
      simp only
      split
      · exact h
      · exact h
    · unfold step nextSegment
      simp only
      by_cases hlimit : tail.segment + 1 < sequenceLimit
      · rw [if_pos hlimit]
        by_cases hnone : d.segments[tail.segment + 1]? = none
        · simp only [hnone, if_true]
          trivial
        · simp only [hnone, if_false]
          exact ⟨rfl, hnone, hsettled rfl hnone⟩
      · rw [if_neg hlimit]
        trivial
  | found next =>
    obtain ⟨rfl, hexists, hidle⟩ := hphase
    exact ⟨tails, h.advance hidle hexists, trivial⟩

end LiveReader

/-! ## Runs of both -/

namespace Race

/-- The invariant of a race. -/
def Sound (s : Race Op) : Prop :=
  (∃ shapes, s.chain.Sound shapes)
    ∧ (∃ tails, Follows s.chain.directory s.reader.tail tails)
    ∧ LiveReader.Sound s.chain.directory s.reader.tail s.reader.phase

lemma start_sound (root : String) : (start root : Race Op).Sound :=
  ⟨⟨[], Chain.empty_sound⟩, ⟨0, follows_empty _ root⟩, trivial⟩

/-- The reader keeps what it has while the writer writes. -/
lemma Sound.written {s : Race Op} (h : s.Sound) {chain : Chain} {shapes : List Shape}
    (hchain : chain.Sound shapes) (hgrows : s.chain.directory.Grows chain.directory) :
    ({ s with chain := chain } : Race Op).Sound := by
  obtain ⟨-, ⟨tails, hfollows⟩, hphase⟩ := h
  exact ⟨⟨shapes, hchain⟩, ⟨tails, hfollows.grows hgrows⟩, hphase.grows hgrows⟩

/-- A settled step keeps the invariant. -/
lemma Sound.step {s s' : Race Op} (h : s.Sound) {step : RaceStep} (hsettled : s.Settled step)
    (hstep : s.step step = some s') : s'.Sound := by
  obtain ⟨shapes, hchain⟩ := h.1
  cases step with
  | write call =>
    obtain ⟨⟨outcome, chain⟩, hcall, rfl⟩ := Option.map_eq_some_iff.mp hstep
    obtain ⟨shapes', added, hsound, hextends, -⟩ := Call.exec_sound hchain hcall
    exact h.written hsound hextends.grows
  | create identity modified =>
    unfold Race.step at hstep
    simp only at hstep
    split at hstep
    · cases hstep
    · next store hstore =>
      split at hstep
      · next hnone =>
        cases hstep
        obtain ⟨hsound, hgrows⟩ := hchain.created hstore hnone identity modified
        exact h.written hsound hgrows
      · cases hstep
  | read =>
    cases hstep
    obtain ⟨tails, hfollows⟩ := h.2.1
    have hidle : s.reader.phase = .scanned →
        s.chain.directory.segments[s.reader.tail.segment + 1]? ≠ none →
          Idle s.chain.directory s.reader.tail := by
      intro hphase hnext
      have hzero : (PageScanner.resume ((s.chain.directory.bytesAt s.reader.tail.segment).drop
          s.reader.tail.offset) s.reader.tail.page).items.2.consumed = 0 := hsettled hphase hnext
      rw [PageScanner.items_resume] at hzero
      exact hzero
    obtain ⟨tails', hfollows', hphase'⟩ :=
      LiveReader.step_follows hchain.holds.readable hfollows h.2.2 hidle
    exact ⟨⟨shapes, hchain⟩, ⟨tails', hfollows'⟩, hphase'⟩

/-- A run whose steps are all settled keeps the invariant. -/
lemma Sound.run {s s' : Race Op} (h : s.Sound) {steps : List RaceStep}
    (hsettled : AllSettled steps s) (hrun : run steps s = some s') : s'.Sound := by
  induction steps generalizing s with
  | nil =>
    cases hrun
    exact h
  | cons step steps ih =>
    obtain ⟨next, hstep, hrest⟩ := Option.bind_eq_some_iff.mp hrun
    obtain ⟨hfirst, hafter⟩ := hsettled
    rw [hstep] at hafter
    exact ih (h.step hfirst hstep) hafter hrest

/-- No record is skipped in a run whose steps are all settled: once the writer rests, a drain leaves
the reader with the evidence and the accepted set of a full read. A whole poll, without a writer
beside it, is made of the steps of the reader. -/
theorem no_record_skipped {root : String} {steps : List RaceStep} {s : Race Op}
    {delta : ChainDelta Op} {tail : Tail (CanonicalChain Op)}
    (hrun : run steps (start root) = some s) (hsettled : AllSettled steps (start root : Race Op))
    (hdrain : (Tail.drain s.chain.directory).exec s.reader.tail = (.ok delta, tail)) :
    ∃ chain, CanonicalChain.read s.chain.directory = .ok chain
      ∧ tail.chain.evidence = chain.evidence ∧ tail.chain.accepted = chain.accepted
      ∧ ∃ n, (LiveReader.step s.chain.directory)^[n] ⟨s.reader.tail, .ready⟩
        = ⟨((Tail.poll s.chain.directory).exec s.reader.tail).2, .ready⟩ := by
  obtain ⟨⟨shapes, hchain⟩, ⟨tails, hfollows⟩, -⟩ := (start_sound root).run hsettled hrun
  have hholds := hchain.holds
  refine ⟨_, read_of_readable hholds.readable hholds.bounded hholds.named, ?_⟩
  obtain ⟨r, tail', tails', hexec, -, -, hdone, -⟩ :=
    drain_done hholds.readable hholds.bounded hfollows
  rw [hdrain] at hexec
  cases hexec
  rw [hdone]
  exact ⟨rfl, rfl, LiveReader.exists_steps_poll s.chain.directory s.reader.tail⟩

/-! ## A segment left too early -/

/-- A page with one record. -/
def onePage (data : Bytes) : Page := (Page.new 0).addRecord 0 data

/-- The reader has read the first record and finds nothing more; a message is appended, and another
record starts the next segment, before the reader tests for it. -/
def lateTest : List RaceStep :=
  [.write (.reopen 4096 {}), .write (.appendPage (onePage [1]) {}), .read, .read, .read,
    .read, .read, .read,
    .write (.appendPage (onePage messageV1) {}), .write (.rotate none),
    .write (.appendPage (onePage [2]) {}), .read, .read]

/-- The same records, with a look at the first segment before the test. -/
def earlyTest : List RaceStep :=
  [.write (.reopen 4096 {}), .write (.appendPage (onePage [1]) {}), .read, .read, .read,
    .write (.appendPage (onePage messageV1) {}), .read, .read, .read, .write (.rotate none),
    .create (1, 2) 9, .write (.appendPage (onePage [2]) {}), .read, .read, .read, .read, .read]

/-- The sizes of the accepted sets of a drained reader and of a full read. -/
def acceptedSizes (steps : List RaceStep) : Option (ℕ × ℕ) :=
  match @run OpId messageSchema crc32cChecksum steps
      (@start OpId messageSchema "chain") with
  | none => none
  | some s =>
    match (@Tail.drain OpId messageSchema crc32cChecksum (CanonicalChain OpId)
          (@instTailCorpusCanonicalChain OpId messageSchema) s.chain.directory).exec s.reader.tail,
        @CanonicalChain.read OpId messageSchema crc32cChecksum s.chain.directory with
    | (.ok _, tail), .ok chain => some (tail.chain.accepted.size, chain.accepted.size)
    | _, _ => none

omit [Schema Op] [Checksum] in
/-- What the sizes are the sizes of. -/
lemma exists_of_acceptedSizes {steps : List RaceStep} {m n : ℕ}
    (h : acceptedSizes steps = some (m, n)) :
    ∃ s delta tail chain, @run OpId messageSchema crc32cChecksum steps
          (@start OpId messageSchema "chain") = some s
      ∧ (@Tail.drain OpId messageSchema crc32cChecksum (CanonicalChain OpId)
          (@instTailCorpusCanonicalChain OpId messageSchema) s.chain.directory).exec s.reader.tail
        = (.ok delta, tail)
      ∧ @CanonicalChain.read OpId messageSchema crc32cChecksum s.chain.directory = .ok chain
      ∧ tail.chain.accepted.size = m ∧ chain.accepted.size = n := by
  unfold acceptedSizes at h
  split at h
  · cases h
  · next s hrun =>
    split at h
    · next delta tail chain hdrain hread =>
      cases h
      exact ⟨s, delta, tail, chain, hrun, hdrain, hread, rfl, rfl⟩
    · cases h

omit [Schema Op] [Checksum] in
/-- The message is lost: the reader has moved to the next segment and drains without an error, but
a full read accepts an operation that the reader has not seen. -/
theorem record_skipped_by_late_test :
    ∃ s delta tail chain, @run OpId messageSchema crc32cChecksum lateTest
          (@start OpId messageSchema "chain") = some s
      ∧ (@Tail.drain OpId messageSchema crc32cChecksum (CanonicalChain OpId)
          (@instTailCorpusCanonicalChain OpId messageSchema) s.chain.directory).exec s.reader.tail
        = (.ok delta, tail)
      ∧ @CanonicalChain.read OpId messageSchema crc32cChecksum s.chain.directory = .ok chain
      ∧ tail.chain.accepted ≠ chain.accepted := by
  have hsizes : acceptedSizes lateTest = some (0, 1) := by decide +kernel
  obtain ⟨s, delta, tail, chain, hrun, hdrain, hread, htail, hchain⟩ :=
    exists_of_acceptedSizes hsizes
  refine ⟨s, delta, tail, chain, hrun, hdrain, hread, fun heq => ?_⟩
  rw [heq, hchain] at htail
  cases htail

omit [Schema Op] [Checksum] in
/-- With the look before the test nothing is lost. -/
theorem no_record_skipped_by_early_test :
    ∃ s tail chain, @run OpId messageSchema crc32cChecksum earlyTest
          (@start OpId messageSchema "chain") = some s
      ∧ @CanonicalChain.read OpId messageSchema crc32cChecksum s.chain.directory = .ok chain
      ∧ tail = ((@Tail.drain OpId messageSchema crc32cChecksum (CanonicalChain OpId)
          (@instTailCorpusCanonicalChain OpId messageSchema) s.chain.directory).exec s.reader.tail).2
      ∧ tail.chain.accepted.size = 1 ∧ tail.chain.accepted = chain.accepted := by
  have hsizes : acceptedSizes earlyTest = some (1, 1) := by decide +kernel
  have hsettled : @AllSettled OpId messageSchema crc32cChecksum earlyTest
      (@start OpId messageSchema "chain") := by
    decide +kernel
  obtain ⟨s, delta, tail, -, hrun, hdrain, -, htail, -⟩ := exists_of_acceptedSizes hsizes
  obtain ⟨chain, hread, -, haccepted, -⟩ := @no_record_skipped OpId messageSchema crc32cChecksum "chain"
    earlyTest s delta tail hrun hsettled hdrain
  exact ⟨s, tail, chain, hrun, hread, by rw [hdrain], htail, haccepted⟩

end Race
end EditChain.Store
