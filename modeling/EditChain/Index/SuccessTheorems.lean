import EditChain.Index.MirrorTheorems

/-!
# Calls that succeed

Where the framing of a chain is valid and its content can be read, an index finds whatever it asks
for: what it read before is still there, and nothing that it kept can be missing. Only a journal
whose positions are used up can stop a refresh.
-/

namespace EditChain.Store

open Core Fallible UnitReader
open Std (ExtTreeMap)

variable {Op : Type} [Schema Op] [Checksum] {d : Directory}

namespace IndexedChain

variable {chain chain' : IndexedChain Op}

/-- Every variant can be read back, and only quarantined identities have several. -/
structure Sturdy (d : Directory) (chain : IndexedChain Op) : Prop where
  tidy : chain.Tidy
  located : chain.Located d

omit [Schema Op] in
lemma holds_succeeds (encoded : Bytes) {locations : List OpRecordLocation}
    (h : ∀ location ∈ locations, ∃ bytes, readEncodedAt d location = .ok bytes) :
    ∃ known, holds d encoded locations = .ok known := by
  induction locations with
  | nil => exact ⟨false, rfl⟩
  | cons location rest ih =>
    obtain ⟨known, hknown⟩ := ih fun other hother => h other (List.mem_cons_of_mem _ hother)
    obtain ⟨bytes, hbytes⟩ := h location List.mem_cons_self
    unfold holds
    split
    · by_cases hsame : bytes = encoded
      · refine ⟨true, bind_eq_ok.mpr ⟨bytes, hbytes, ?_⟩⟩
        rw [if_pos hsame]
        rfl
      · refine ⟨known, bind_eq_ok.mpr ⟨bytes, hbytes, ?_⟩⟩
        rw [if_neg hsame]
        exact hknown
    · exact ⟨known, hknown⟩

/-- The variants of an identity can be compared with a new record. -/
lemma Located.classify_succeeds (h : chain.Located d) (id : OpId) (encoded : Bytes) :
    ∃ admission, chain.classify d id encoded = .ok admission
      ∧ (admission = .conflict → ∃ entry, chain.entries[id]? = some entry) := by
  unfold classify
  cases hentry : chain.entries[id]? with
  | none => exact ⟨.accepted, rfl, nofun⟩
  | some entry =>
    have hall : ∀ location ∈ entry.location :: chain.conflicts[id]?.getD [],
        ∃ bytes, readEncodedAt d location = .ok bytes := by
      intro location hlocation
      obtain ⟨op, hread, -⟩ := h id location (by
        unfold recordLocations
        rw [hentry]
        exact hlocation)
      obtain ⟨bytes, hbytes, -⟩ := bind_eq_ok.mp hread
      exact ⟨bytes, hbytes⟩
    obtain ⟨known, hknown⟩ := holds_succeeds encoded hall
    dsimp only
    cases known with
    | true => exact ⟨.duplicate, bind_eq_ok.mpr ⟨true, hknown, rfl⟩, nofun⟩
    | false => exact ⟨.conflict, bind_eq_ok.mpr ⟨false, hknown, rfl⟩, fun _ => ⟨entry, rfl⟩⟩

/-- A record that can be read back is admitted. -/
lemma Sturdy.admitRecord_succeeds (h : chain.Sturdy d) {op : Op} {location : OpRecordLocation}
    (hread : readOpAt d location = .ok op) (encoded : Bytes) :
    ∃ admission chain', (admitRecord d op encoded location).exec chain = (.ok admission, chain')
      ∧ chain'.Sturdy d := by
  obtain ⟨admission, hclassify, hknown⟩ := h.located.classify_succeeds (Schema.id op) encoded
  have hexec : ∃ chain', (admitRecord d op encoded location).exec chain
      = (.ok admission, chain') := by
    unfold admitRecord
    rw [exec_bind_of_ok (exec_get chain)]
    dsimp only
    rw [exec_bind, exec_lift, hclassify]
    cases admission with
    | accepted => exact ⟨_, rfl⟩
    | duplicate => exact ⟨_, rfl⟩
    | conflict =>
      obtain ⟨entry, hentry⟩ := hknown rfl
      dsimp only
      rw [hentry]
      exact ⟨_, rfl⟩
  obtain ⟨chain', hexec⟩ := hexec
  refine ⟨admission, chain', hexec, ?_⟩
  obtain ⟨hvaries, htidy, hothers⟩ := admitRecord_varies h.tidy hexec
  refine ⟨htidy, fun id place hplace => ?_⟩
  by_cases hsame : id = Schema.id op
  · subst hsame
    cases hvaries with
    | accepted _ hone =>
      rw [hone, List.mem_singleton] at hplace
      subst hplace
      exact ⟨op, hread, rfl⟩
    | duplicate hkept =>
      rw [hkept] at hplace
      exact h.located _ place hplace
    | conflict hmore =>
      rw [hmore, List.mem_append, List.mem_singleton] at hplace
      rcases hplace with hold | rfl
      · exact h.located _ place hold
      · exact ⟨op, hread, rfl⟩
  · rw [hothers id hsame] at hplace
    exact h.located id place hplace

omit [Schema Op] in
lemma Sturdy.of_eq [Schema Op] (h : chain.Sturdy d) (hentries : chain'.entries = chain.entries)
    (hconflicts : chain'.conflicts = chain.conflicts) : chain'.Sturdy d := by
  refine ⟨?_, ?_⟩
  · unfold Tidy
    rw [hentries, hconflicts]
    exact h.tidy
  · intro id location hlocation
    unfold recordLocations at hlocation
    rw [hentries, hconflicts] at hlocation
    exact h.located id location hlocation

end IndexedChain

namespace Tail

open Directory IndexedChain

variable {tail : Tail (IndexedChain Op)}

/-- Records of a slice are admitted. -/
lemma admitRecords_succeeds {file : SegmentFile} {limit : ℕ} {records : List RecordRef}
    (delta : ChainDelta Op) (h : tail.chain.Sturdy d)
    (hfile : d.segments[tail.segment]? = some file)
    (hlies : ∀ record ∈ records, record.Lies ((file.bytes.drop tail.offset).take limit)) :
    ∃ delta' tail', (admitRecords d records delta).exec tail = (.ok delta', tail')
      ∧ tail'.chain.Sturdy d := by
  induction records generalizing delta tail with
  | nil => exact ⟨delta, tail, rfl, h⟩
  | cons record records ih =>
    have hone : ∃ delta' chain', (admitOne d record delta).exec tail
        = (.ok delta', { tail with chain := chain' }) ∧ chain'.Sturdy d := by
      unfold admitOne
      cases hop : (Schema.decodeOp record.data : Except _ Op) with
      | error error => exact ⟨_, _, rfl, h.of_eq rfl rfl⟩
      | ok op =>
        have hread := readOpAt_of_lies hfile (hlies record List.mem_cons_self) hop
        obtain ⟨admission, chain', hadmitted, hsturdy⟩ :=
          h.admitRecord_succeeds hread record.data
        rw [exec_bind_of_ok (exec_get tail)]
        dsimp only
        have hsame : (TailCorpus.admitRecord d op record.data ⟨tail.segment,
            tail.offset + record.dataOffset, record.data.length, record.checksum⟩).exec tail.chain
            = (.ok admission, chain') := hadmitted
        unfold onChain
        rw [exec_bind, exec_zoom, hsame]
        exact ⟨_, chain', rfl, hsturdy⟩
    obtain ⟨delta₁, chain₁, hexec, hsturdy⟩ := hone
    rw [admitRecords, exec_bind_of_ok hexec]
    exact ih delta₁ hsturdy hfile fun other hother => hlies other (List.mem_cons_of_mem _ hother)

/-- The records of a slice with valid framing. -/
lemma completeRecords_succeeds {bytes : Bytes} {page : Option UInt32}
    (hgood : ∀ e, (pages.run page bytes).ending ≠ .bad e) :
    ∃ records, completeRecords (PageScanner.resume bytes page).items.1 = .ok records := by
  rw [congrArg Prod.fst (PageScanner.items_resume bytes page), completeRecords_append]
  cases hending : (pages.run page bytes).ending with
  | clean => exact ⟨_, rfl⟩
  | more => exact ⟨_, rfl⟩
  | bad e => exact absurd hending (hgood e)

/-- One look at the frontier segment succeeds. -/
lemma admitFrontier_succeeds {file : SegmentFile} (metadata : FileStamp) (delta : ChainDelta Op)
    (h : tail.chain.Sturdy d) (hfile : d.segments[tail.segment]? = some file)
    (hgood : ∀ e, (pages.run tail.page (tail.readFrontier d)).ending ≠ .bad e) :
    ∃ delta' tail', (admitFrontier d metadata (tail.readFrontier d) delta).exec tail
        = (.ok delta', tail') ∧ tail'.chain.Sturdy d := by
  obtain ⟨records, hrecords⟩ := completeRecords_succeeds hgood
  have hslice : tail.readFrontier d = (file.bytes.drop tail.offset).take maxFrameBytes := by
    unfold readFrontier
    rw [hfile]
  have hlies := (completeRecords_lies hrecords).1
  rw [hslice] at hlies
  obtain ⟨delta₁, tail₁, hadmitted, hsturdy⟩ := admitRecords_succeeds { delta with
    work := { delta.work with
      bytesRead := delta.work.bytesRead + (tail.readFrontier d).length } } h hfile hlies
  unfold admitFrontier scan
  dsimp only
  simp only [exec_bind_of_ok (exec_get tail), bind_assoc]
  rw [exec_bind, exec_lift, hrecords]
  dsimp only
  rw [exec_bind_of_ok hadmitted]
  refine ⟨_, _, rfl, ?_⟩
  dsimp only
  split
  · exact hsturdy.of_eq rfl rfl
  · exact hsturdy

variable {k : ℕ}

/-- A poll of a readable directory succeeds, unless the numbers of segments are used up. -/
lemma pollLoop_succeeds (hd : d.Readable k) (hk : k < sequenceLimit) (fuel : ℕ)
    (delta : ChainDelta Op) (h : Reaches d tail) (hsturdy : tail.chain.Sturdy d) :
    ∃ delta' tail', (pollLoop d fuel delta).exec tail = (.ok delta', tail')
      ∧ tail'.chain.Sturdy d := by
  induction fuel generalizing delta tail with
  | zero => exact ⟨delta, tail, rfl, hsturdy⟩
  | succ fuel ih =>
    obtain ⟨shadowed, tails, hfollows⟩ := h.frontier
    have hopened : tail.openFrontier d = .ok (d.segments[tail.segment]?.map FileStamp.read) :=
      hfollows.openFrontier
    unfold pollLoop
    rw [exec_bind_of_ok (exec_get tail), exec_bind, exec_lift, hopened]
    cases hfile : d.segments[tail.segment]? with
    | none => exact ⟨delta, tail, rfl, hsturdy⟩
    | some file =>
      have hpart : tail.readFrontier d <+: (d.bytesAt tail.segment).drop tail.offset := by
        unfold readFrontier
        rw [hfile, bytesAt_of_some hfile]
        exact List.take_prefix _ _
      obtain ⟨delta₁, seen, hfirst, hkept⟩ := admitFrontier_succeeds (FileStamp.read file) delta
        hsturdy hfile (hfollows.rest_sound hd hpart)
      obtain ⟨hseen, hsegment, hoffset, hexhausted, -⟩ := h.visit hfile hfirst
      have hlt : tail.segment < k := by
        rw [← hd.dense, hfile]
        rfl
      have hnumber : seen.nextSegment = .ok (seen.segment + 1) := by
        unfold nextSegment
        rw [if_pos (by omega)]
      dsimp only [Option.map_some]
      rw [exec_bind_of_ok hfirst, exec_bind_of_ok (exec_get seen)]
      split
      · exact ⟨delta₁, seen, rfl, hkept⟩
      · next hstays =>
        rw [exec_bind, exec_lift, hnumber]
        dsimp only
        split
        · exact ⟨delta₁, seen, rfl, hkept⟩
        · next hmore =>
          rw [exec_bind_of_ok (exec_set _ seen)]
          exact ih delta₁ (hseen.advance (hexhausted (by omega)) hmore) hkept

lemma drainLoop_succeeds (hd : d.Readable k) (hk : k < sequenceLimit) (fuel : ℕ)
    (result : ChainDelta Op) (h : Reaches d tail) (hsturdy : tail.chain.Sturdy d) :
    ∃ delta tail', (drainLoop d fuel result).exec tail = (.ok delta, tail')
      ∧ tail'.chain.Sturdy d := by
  induction fuel generalizing result tail with
  | zero => exact ⟨result, tail, rfl, hsturdy⟩
  | succ fuel ih =>
    obtain ⟨delta, polled, hpoll, hkept⟩ := pollLoop_succeeds hd hk _ {} h hsturdy
    obtain ⟨hreaches, -⟩ := pollLoop_reaches _ h hpoll
    unfold drainLoop
    rw [exec_bind_of_ok (exec_get tail), exec_bind_of_ok (show (poll d).exec tail = _ from hpoll),
      exec_bind_of_ok (exec_get polled)]
    split
    · exact ⟨fold result delta, polled, rfl, hkept⟩
    · exact ih (fold result delta) hreaches hkept

/-- A drain of a readable directory succeeds. -/
lemma drained_succeeds (hd : d.Readable k) (hk : k < sequenceLimit) (h : Reaches d tail)
    (hsturdy : tail.chain.Sturdy d) :
    ∃ delta tail', drained d tail = .ok (delta, tail') ∧ tail'.chain.Sturdy d := by
  obtain ⟨delta, tail', hdrain, hkept⟩ := drainLoop_succeeds hd hk _ {} h hsturdy
  refine ⟨delta, tail', ?_, hkept⟩
  unfold drained
  rw [show (drain d).exec tail = (.ok delta, tail') from hdrain]

lemma sturdy_empty (d : Directory) (root : String) :
    (Tail.empty root : Tail (IndexedChain Op)).chain.Sturdy d := by
  refine ⟨fun id hid => ?_, fun id location hlocation => ?_⟩
  · exact absurd (by simp [Tail.empty, TailCorpus.empty]) hid
  · simp [IndexedChain.recordLocations, Tail.empty, TailCorpus.empty] at hlocation

/-- A readable directory is opened. -/
lemma openAll_succeeds (root : String) {sequences : List ℕ}
    (hsequences : d.segmentSequences = .ok sequences) (hd : d.Readable k)
    (hk : k < sequenceLimit) :
    ∃ tail : Tail (IndexedChain Op), openAll root d = .ok tail ∧ tail.chain.Sturdy d := by
  obtain ⟨delta, tail, hdrain, hkept⟩ := drainLoop_succeeds hd hk
    (totalBytes d + d.segments.size + 2) {} (reaches_empty d root : Reaches d (_ : Tail
      (IndexedChain Op))) (sturdy_empty d root)
  refine ⟨tail, bind_eq_ok.mpr ⟨sequences, hsequences, ?_⟩, hkept⟩
  rw [exec_openLoop _ {} _, hdrain]
  rfl

end Tail
end EditChain.Store

namespace EditChain.Index

open Core Fallible Store
open Std (ExtTreeMap ExtTreeSet TransOrd LawfulEqOrd)

/-! ## Content -/

/-- Content can be read. -/
def Answered {Ref : Type} (answers : Answers Ref) : Prop :=
  ∀ reference, ∃ state, answers reference = .ok state

namespace ContentIndex

variable {Ref : Type} [Ord Ref] [TransOrd Ref] {answers : Answers Ref}

lemma refreshLoop_succeeds (h : Answered answers) (references : List Ref)
    (index : ContentIndex Ref) (changed : ExtTreeSet OpId) (reads : ℕ) :
    ∃ found, (refreshLoop answering references index changed reads).exec answers
      = (.ok found, answers) := by
  induction references generalizing index changed reads with
  | nil => exact ⟨_, rfl⟩
  | cons reference rest ih =>
    obtain ⟨state, hstate⟩ := h reference
    have hread : (answering reference).exec answers = (.ok state, answers) := by
      unfold answering
      rw [exec_of, hstate]
    rw [refreshLoop, exec_bind_of_ok hread]
    exact ih _ _ _

lemma add_succeeds (h : Answered answers) (index : ContentIndex Ref) (reference : Ref)
    (owner : OpId) (reads : ℕ) :
    ∃ found, (index.add answering reference owner reads).exec answers = (.ok found, answers) := by
  have hdiscover : ∃ found, (index.discover answering reference reads).exec answers
      = (.ok found, answers) := by
    unfold discover
    split
    · exact ⟨_, rfl⟩
    · obtain ⟨state, hstate⟩ := h reference
      have hread : (answering reference).exec answers = (.ok state, answers) := by
        unfold answering
        rw [exec_of, hstate]
      rw [exec_bind_of_ok hread]
      exact ⟨_, rfl⟩
  obtain ⟨found, hfound⟩ := hdiscover
  unfold add
  rw [exec_bind_of_ok hfound]
  exact ⟨_, rfl⟩

end ContentIndex

/-! ## Journals -/

namespace ChangeLog

/-- `append`, when there is no position left. -/
def exhausted : IoError := ⟨.other, "index revision exhausted"⟩

/-- Changes are appended as long as there are positions left. -/
lemma appendAll_cases (changes : List IndexChange) (log : ChangeLog) :
    (∃ log', appendAll changes log = .ok log')
      ∨ (positionMax < log.revision.position + changes.length
        ∧ appendAll changes log = .error exhausted) := by
  induction changes generalizing log with
  | nil => exact .inl ⟨log, rfl⟩
  | cons change changes ih =>
    unfold appendAll
    unfold append
    split
    · next hlast =>
      refine .inr ⟨?_, rfl⟩
      rw [List.length_cons]
      omega
    · rcases ih ⟨{ log.revision with position := log.revision.position + 1 },
        trim (log.entries.insert (log.revision.position + 1) change).1.len
          (log.entries.insert (log.revision.position + 1) change).1⟩ with
        ⟨log', hlog'⟩ | ⟨hfull, herror⟩
      · exact .inl ⟨log', hlog'⟩
      · refine .inr ⟨?_, herror⟩
        dsimp only at hfull
        rw [List.length_cons]
        omega

end ChangeLog

/-! ## States -/

variable {Op Ref Key : Type} [Schema Op] [Checksum] [IndexSchema Op Ref Key] [DecidableEq Key]
  [Ord Ref] [TransOrd Ref] [LawfulEqOrd Ref] [DecidableEq Ref]

/-- Nothing stands in the way of reading a chain and its content: the segments are numbered without
a gap, with numbers left, their framing is valid, and content can be read. -/
structure Healthy (d : Directory) (answers : Answers Ref) : Prop where
  named : d.misnamed = none
  readable : ∃ k < sequenceLimit, d.Readable k
  answered : Answered answers

namespace State

variable {d : Directory} {state : State Op Ref Key} {truth : Ref → ContentState}
  {answers : Answers Ref}

omit [LawfulEqOrd Ref] [DecidableEq Ref] in
lemma retract_succeeds (ids : List OpId) (state : State Op Ref Key)
    (h : ∀ (id : OpId) location, state.records[id]? = some location →
      ∃ op : Op, readOpAt d location = .ok op) :
    ∃ state', state.retract d ids = .ok state' := by
  induction ids generalizing state with
  | nil => exact ⟨state, rfl⟩
  | cons id ids ih =>
    rw [State.retract]
    cases hrecord : state.records[id]? with
    | none => exact ih state h
    | some location =>
      obtain ⟨op, hread⟩ := h id location hrecord
      have hrest : ∀ (other : OpId) place,
          ({ state with records := state.records.erase id }.remove op).records[other]?
            = some place → ∃ op : Op, readOpAt d place = .ok op := by
        intro other place hplace
        change (state.records.erase id)[other]? = some place at hplace
        rw [ExtTreeMap.getElem?_erase] at hplace
        split at hplace
        · cases hplace
        · exact h other place hplace
      obtain ⟨state', hstate'⟩ := ih _ hrest
      exact ⟨state', bind_eq_ok.mpr ⟨op, hread, hstate'⟩⟩

omit [TransOrd Ref] [LawfulEqOrd Ref] [DecidableEq Ref] [DecidableEq Key] in
lemma rememberConflicts_succeeds (locations : List OpRecordLocation) (state : State Op Ref Key)
    (h : ∀ location ∈ locations, ∃ op : Op, readOpAt d location = .ok op) :
    ∃ state', state.rememberConflicts d locations = .ok state' := by
  induction locations generalizing state with
  | nil => exact ⟨state, rfl⟩
  | cons location rest ih =>
    obtain ⟨op, hread⟩ := h location List.mem_cons_self
    obtain ⟨state', hstate'⟩ := ih (state.remember op)
      fun other hother => h other (List.mem_cons_of_mem _ hother)
    exact ⟨state', bind_eq_ok.mpr ⟨op, hread, hstate'⟩⟩

omit [Checksum] [LawfulEqOrd Ref] [DecidableEq Ref] in
lemma addAll_succeeds (h : Answered answers) (operations : List (Op × OpRecordLocation))
    (state : State Op Ref Key) (reads : ℕ) :
    ∃ found, (addAll answering operations state reads).exec answers = (.ok found, answers) := by
  have hcontent : ∀ (owner : OpId) (references : List Ref) (content : ContentIndex Ref)
      (reads : ℕ), ∃ found, (addContent answering owner references content reads).exec answers
        = (.ok found, answers) := by
    intro owner references
    induction references with
    | nil => exact fun content reads => ⟨_, rfl⟩
    | cons reference rest ih =>
      intro content reads
      obtain ⟨found, hfound⟩ := ContentIndex.add_succeeds h content reference owner reads
      rw [addContent, exec_bind_of_ok hfound]
      exact ih _ _
  induction operations generalizing state reads with
  | nil => exact ⟨_, rfl⟩
  | cons first rest ih =>
    obtain ⟨op, location⟩ := first
    obtain ⟨found, hfound⟩ := hcontent (Schema.id op) (IndexSchema.references op)
      (state.remember op).content reads
    have hone : ∃ found, (state.add answering op location reads).exec answers
        = (.ok found, answers) := by
      unfold State.add
      rw [exec_bind_of_ok hfound]
      exact ⟨_, rfl⟩
    obtain ⟨found, hfound⟩ := hone
    rw [addAll, exec_bind_of_ok hfound]
    exact ih _ _

/-- Applying a delta succeeds where what is retained can be read. -/
lemma apply_succeeds (delta : ChainDelta Op) {before : IndexedChain Op}
    (h : state.Derived (acceptedBy before)) (hbacked : Backed d (acceptedBy before))
    (hsturdy : state.tail.chain.Sturdy d) (hanswered : Answered answers) (reads : ℕ) :
    ∃ found, (State.apply answering d delta state reads).exec answers = (.ok found, answers) := by
  unfold State.apply
  generalize hids : delta.added.keys.foldl (fun ids id => ids.insert id)
    (delta.removed.toList.foldl (fun ids id => ids.insert id) state.identities) = ids
  have hcopy : ({ state with identities := ids } : State Op Ref Key).Derived
      (acceptedBy before) := h.of_eq rfl rfl
  obtain ⟨retracted, hretract⟩ := retract_succeeds (d := d) delta.removed.toList
    { state with identities := ids } fun id location hlocation => by
      rw [hcopy.records, Option.map_eq_some_iff] at hlocation
      obtain ⟨⟨place, op⟩, haccepted, rfl⟩ := hlocation
      exact ⟨op, (hbacked id place op haccepted).1⟩
  obtain ⟨-, -, -, htail⟩ := hcopy.retract hbacked hretract
  obtain ⟨remembered, hremember⟩ := rememberConflicts_succeeds (d := d)
    (delta.removed.toList.flatMap retracted.tail.chain.recordLocations) retracted
    fun location hlocation => by
      obtain ⟨id, -, hmem⟩ := List.mem_flatMap.mp hlocation
      rw [htail] at hmem
      obtain ⟨op, hread, -⟩ := hsturdy.located id location hmem
      exact ⟨op, hread⟩
  obtain ⟨⟨content, changed, reads₁⟩, hrefresh⟩ := ContentIndex.refreshLoop_succeeds hanswered
    remembered.content.pending.toList remembered.content ∅ reads
  obtain ⟨⟨added, reads₂⟩, hadd⟩ := addAll_succeeds hanswered (delta.added.toList.map Prod.snd)
    { remembered with content := content } reads₁
  dsimp only
  rw [exec_bind, exec_lift, hretract]
  dsimp only
  rw [exec_bind, exec_lift, hremember]
  dsimp only
  rw [exec_bind_of_ok (show (remembered.content.refresh answering reads).exec answers = _
    from hrefresh)]
  dsimp only
  rw [exec_bind_of_ok hadd]
  exact ⟨_, rfl⟩

/-- A refresh reports every identity at most once, and only identities that are retained. -/
lemma changes_once {records : ChainDelta Op} {before after : IndexedChain Op}
    (htracks : records.Tracks d before after) (changed : ExtTreeSet OpId)
    (hchanged : ∀ id, id ∉ records.removed → records.added[id]? = none → id ∈ changed →
      (acceptedBy before id).isSome) (work : IndexWork) :
    let delta : IndexDelta := ⟨records.added.keys, records.removed,
      changed.filter fun id => !(id ∈ records.added || id ∈ records.removed), work⟩
    (delta.changes.map IndexChange.operation).Nodup
      ∧ ∀ change ∈ delta.changes, change.operation ∈ after.identities := by
  intro delta
  have hkeys : ∀ id : OpId, after.entries[id]?.isSome → id ∈ after.identities := by
    intro id hsome
    unfold IndexedChain.identities
    rw [ExtTreeMap.mem_keys, ExtTreeMap.mem_iff_isSome_getElem?]
    exact hsome
  have hcontent : ∀ id, id ∈ delta.contentChanged →
      id ∉ records.added ∧ id ∈ changed ∧ id ∉ records.removed := by
    intro id hid
    rw [ExtTreeSet.mem_filter] at hid
    simpa using hid
  have htoList : ∀ ids : ExtTreeSet OpId, ids.toList.Nodup := by
    intro ids
    apply ExtTreeSet.distinct_toList.imp
    intro a b hne heq
    exact hne (Std.compare_eq_iff_eq.mpr heq)
  have hoperations : delta.changes.map IndexChange.operation
      = records.added.keys ++ records.removed.toList ++ delta.contentChanged.toList := by
    unfold IndexDelta.changes
    simp [Function.comp_def, delta]
  constructor
  · rw [hoperations, List.nodup_append', List.nodup_append']
    refine ⟨⟨ExtTreeMap.nodup_keys, htoList _, ?_⟩, htoList _, ?_⟩
    · intro id hadded hremoved
      rw [ExtTreeMap.mem_keys] at hadded
      rw [ExtTreeSet.mem_toList] at hremoved
      exact disjoint_delta htracks hadded hremoved
    · intro id hearlier hid
      rw [ExtTreeSet.mem_toList] at hid
      obtain ⟨hadded, -, hremoved⟩ := hcontent id hid
      rcases List.mem_append.mp hearlier with hcase | hcase
      · exact hadded (ExtTreeMap.mem_keys.mp hcase)
      · exact hremoved (ExtTreeSet.mem_toList.mp hcase)
  · intro change hchange
    have hmem : change.operation ∈ delta.changes.map IndexChange.operation :=
      List.mem_map.mpr ⟨change, hchange, rfl⟩
    rw [hoperations, List.mem_append, List.mem_append, ExtTreeMap.mem_keys, ExtTreeSet.mem_toList,
      ExtTreeSet.mem_toList] at hmem
    apply hkeys
    rcases hmem with (hadded | hremoved) | hcase
    · obtain ⟨⟨op, location⟩, hsome⟩ := Option.isSome_iff_exists.mp
        (ExtTreeMap.mem_iff_isSome_getElem?.mp hadded)
      rw [(htracks.added _ op location hsome).2.1]
      rfl
    · obtain ⟨entry, hentry, -⟩ := htracks.removed _ hremoved
      rw [hentry]
      rfl
    · obtain ⟨hadded, hmem, hremoved⟩ := hcontent _ hcase
      rw [ExtTreeMap.mem_iff_isSome_getElem?, Option.not_isSome_iff_eq_none] at hadded
      obtain ⟨⟨location, op⟩, hsome⟩ := Option.isSome_iff_exists.mp
        (hchanged _ hremoved hadded hmem)
      apply htracks.seen
      rw [acceptedBy_eq_some.mp hsome]
      rfl

/-- The work of a refresh on its copy succeeds, unless the journal has fewer positions left than
there are identities. -/
lemma Mirrors.advance_succeeds (h : state.Mirrors d truth) (hhealthy : Healthy d answers)
    {expected : Tail (IndexedChain Op)}
    (hexpected : ∀ k, (∀ n : ℕ, d.segments[n]?.isSome ↔ n < k) → Tail.Finished d k expected) :
    (∃ next delta, (state.advance answering d).exec answers = (.ok (next, delta), answers))
      ∨ ((state.advance answering d).exec answers = (.error ChangeLog.exhausted, answers)
        ∧ positionMax
          < state.changes.revision.position + expected.chain.identities.length) := by
  obtain ⟨k, hk, hd⟩ := hhealthy.readable
  obtain ⟨records, tail, hdrained, hsturdy⟩ :=
    Tail.drained_succeeds hd hk h.reaches ⟨h.tidy, h.located⟩
  have hcopy : ({ state with tail := tail } : State Op Ref Key).Derived
      (acceptedBy state.tail.chain) := h.follows.derived.of_eq rfl rfl
  obtain ⟨⟨next, changed, reads⟩, happly⟩ := apply_succeeds records hcopy
    h.follows.backed hsturdy hhealthy.answered 0
  have hdrain := Tail.drained_eq_ok hdrained
  obtain ⟨htracks, -⟩ := Tail.drain_tracks hdrain
  obtain ⟨-, hfinished, -⟩ := Tail.drain_reaches h.reaches hdrain
  obtain ⟨-, hchanged, hchanges, -⟩ := hcopy.apply h.follows.backed htracks happly
  obtain ⟨hnodup, hretained⟩ := changes_once htracks changed (fun id hr ha hid => by
    obtain ⟨location, op, hsome, -⟩ := (hchanged id hr ha).mp hid
    rw [hsome]
    rfl) ⟨records.work, reads⟩
  unfold State.advance
  rw [exec_bind, exec_lift, hdrained]
  dsimp only
  rw [exec_bind_of_ok happly]
  dsimp only
  generalize hdelta : IndexDelta.mk records.added.keys records.removed
    (changed.filter fun id => !(id ∈ records.added || id ∈ records.removed))
    ⟨records.work, reads⟩ = delta at hnodup hretained ⊢
  rw [exec_bind, exec_lift]
  rcases ChangeLog.appendAll_cases delta.changes next.changes with
    ⟨log, hlog⟩ | ⟨hfull, herror⟩
  · rw [hlog]
    exact .inl ⟨_, delta, rfl⟩
  · rw [herror]
    rw [hchanges] at hfull
    refine .inr ⟨rfl, ?_⟩
    have hle : (delta.changes.map IndexChange.operation).length
        ≤ tail.chain.identities.length := by
      apply (hnodup.subperm fun id hid => ?_).length_le
      obtain ⟨change, hchange, rfl⟩ := List.mem_map.mp hid
      exact hretained change hchange
    rw [List.length_map, (hfinished k hd.dense).chain_eq (hexpected k hd.dense)] at hle
    have hsum : positionMax < state.changes.revision.position + delta.changes.length := hfull
    omega

/-- A refresh reports every identity at most once. -/
lemma Follows.advance_once {σ : Type} {source : Ref → Fallible IoError σ ContentState} {s s' : σ}
    {state' : State Op Ref Key} {delta : IndexDelta} (h : state.Follows d)
    (hexec : (state.advance source d).exec s = (.ok (state', delta), s')) :
    (delta.changes.map IndexChange.operation).Nodup := by
  unfold State.advance at hexec
  obtain ⟨⟨records, tail⟩, s₁, hdrained, hexec⟩ := exec_bind_eq_ok.mp hexec
  obtain ⟨hdrained', rfl⟩ := Prod.mk.inj hdrained
  obtain ⟨⟨next, changed, reads⟩, s₂, happly, hexec⟩ := exec_bind_eq_ok.mp hexec
  obtain ⟨changes, s₃, hchanges, hexec⟩ := exec_bind_eq_ok.mp hexec
  cases hexec
  obtain ⟨htracks, -⟩ := Tail.drain_tracks (Tail.drained_eq_ok hdrained')
  have hcopy : ({ state with tail := tail } : State Op Ref Key).Derived
      (acceptedBy state.tail.chain) := h.derived.of_eq rfl rfl
  obtain ⟨-, hchanged, -, -⟩ := hcopy.apply h.backed htracks happly
  exact (changes_once htracks changed (fun id hr ha hid => by
    obtain ⟨location, op, hsome, -⟩ := (hchanged id hr ha).mp hid
    rw [hsome]
    rfl) _).1

omit [Checksum] in
lemma located_succeeds (chain : IndexedChain Op) (ops : List Op)
    (h : ∀ op ∈ ops, ∃ location, (chain.recordLocations (Schema.id op)).head? = some location) :
    ∃ operations, located chain ops = .ok operations := by
  induction ops with
  | nil => exact ⟨[], rfl⟩
  | cons op ops ih =>
    obtain ⟨operations, hrest⟩ := ih fun other hother => h other (List.mem_cons_of_mem _ hother)
    obtain ⟨location, hlocation⟩ := h op List.mem_cons_self
    refine ⟨(op, location) :: operations, ?_⟩
    rw [located, hlocation]
    exact bind_eq_ok.mpr ⟨location, rfl, bind_eq_ok.mpr ⟨operations, hrest, rfl⟩⟩

omit [LawfulEqOrd Ref] [DecidableEq Ref] in
/-- A state is built from a healthy chain. -/
lemma build_succeeds (root name : String) (hhealthy : Healthy d answers) :
    ∃ state : State Op Ref Key, (build answering root d name).exec answers
      = (.ok state, answers) := by
  obtain ⟨k, hk, hd⟩ := hhealthy.readable
  have hsequences : d.segmentSequences = .ok (List.range' 0 k) := by
    unfold Directory.segmentSequences
    rw [hhealthy.named, keys_eq_range hd.dense, List.range_eq_range',
      if_pos (contiguous_range' 0 k (by omega))]
  obtain ⟨tail, hopen, hsturdy⟩ : ∃ tail : Tail (IndexedChain Op), _ :=
    Tail.openAll_succeeds root hsequences hd hk
  have hbacked := openAll_backed hopen
  obtain ⟨operations, hlocated⟩ := located_succeeds tail.chain
    tail.chain.sharedOps fun op hop => by
      obtain ⟨id, location, hsome⟩ := mem_sharedOps.mp hop
      refine ⟨location, ?_⟩
      unfold IndexedChain.recordLocations
      rw [(hbacked id location op hsome).2, acceptedBy_eq_some.mp hsome]
      rfl
  unfold build
  rw [exec_bind, exec_lift, hopen]
  dsimp only
  rw [exec_bind, exec_lift, hlocated]
  dsimp only
  obtain ⟨⟨added, reads⟩, hadd⟩ := addAll_succeeds hhealthy.answered operations
    ({ changes := (({} : ChangeLog).nameGeneration name).1
       tail := tail
       identities := tail.chain.identities.foldl (fun ids id => ids.insert id) ∅ }
      : State Op Ref Key) 0
  rw [exec_bind_of_ok hadd]
  dsimp only
  obtain ⟨remembered, hremember⟩ := rememberConflicts_succeeds (d := d)
    ((tail.chain.identities.filter fun id =>
      (tail.chain.get id).isNone).flatMap tail.chain.recordLocations) added fun location hlocation => by
      obtain ⟨id, -, hmem⟩ := List.mem_flatMap.mp hlocation
      obtain ⟨op, hread, -⟩ := hsturdy.located id location hmem
      exact ⟨op, hread⟩
  exact ⟨remembered, by rw [exec_lift, hremember]⟩

end State
end EditChain.Index
