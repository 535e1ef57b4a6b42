import EditChain.Index.RecoveryTheorems
import EditChain.IndexPages.Publish

/-!
# Errors are atomic

Whatever stops a refresh or a rebuild, queries are answered as before, the checkpoint is the previous
one or the next one, and once nothing stands in the way any more the index arrives at the state that
a rebuild gives.
-/

namespace EditChain.Index

open Core Fallible Store
open Std (ExtTreeMap ExtTreeSet TransOrd LawfulEqOrd)

variable {Op Ref Key : Type} [Schema Op] [Checksum] [IndexSchema Op Ref Key] [DecidableEq Key]
  [Ord Ref] [TransOrd Ref] [LawfulEqOrd Ref] [DecidableEq Ref]

/-! ## Recovery -/

namespace State

variable {d : Directory} {state expected : State Op Ref Key} {truth : Ref → ContentState}

omit [DecidableEq Ref] in
/-- Two fresh states of one directory match. -/
lemma Fresh.matches (h : state.Fresh d truth) (h' : expected.Fresh d truth) {k : ℕ}
    (hdense : ∀ n : ℕ, d.segments[n]?.isSome ↔ n < k) : state.Matches expected :=
  h.mirrors.matches h'.mirrors h.current h'.current
    ((h.finished k hdense).chain_eq (h'.finished k hdense))

/-- The journal has fewer positions left than there are identities to report. -/
def Full (state expected : State Op Ref Key) : Prop :=
  positionMax < state.changes.revision.position + expected.tail.chain.identities.length

/-- A state has arrived where a rebuild would, and its journal tells how: it goes on from an earlier
state, or from what a rebuild made under one of the given names. -/
structure Recovers (root : String) (names : Set String) (first expected state : State Op Ref Key) :
    Prop where
  arrived : state.Matches expected
  told : Told root names first state

end State

/-- Surroundings in which nothing fails but what the content answers. -/
def calm (d : Directory) (answers : Answers Ref) : Surroundings (Answers Ref) :=
  ⟨d, answers, none, .done⟩

variable {root : String} {d : Directory} {truth : Ref → ContentState} {answers : Answers Ref}
  {expected : State Op Ref Key}

namespace Call

/-- The names that a call gives to generations. -/
def names : Call → Set String
  | .refresh => ∅
  | .rebuild nanos process counter => {generationName nanos process counter}

variable {session : Session Op Ref Key} {around : Surroundings (Answers Ref)}

omit [LawfulEqOrd Ref] [DecidableEq Ref] in
/-- What is left of a handle and its checkpoint when a call fails. -/
lemma ending_of_error {call : Call} {saved : Option (State Op Ref Key)}
    {index : ChainIndex Op Ref Key} {error : IoError}
    (h : (call.perform root around).exec ⟨saved, index⟩ = (.error error, session)) :
    session.index.state = index.state
      ∧ (session.saved = saved ∨ ∃ next, call.prepare root around index.state = .ok (some next)
        ∧ session.saved = some next)
      ∧ (session.index.needsReopen = true ↔ index.needsReopen = true ∨ (around.damage = none
        ∧ ∃ next, call.prepare root around index.state = .ok (some next)))
      ∧ (session.index.needsReopen = true → ∀ (later : Call) around,
        (later.perform root around).exec session = (.error Call.fenced, session)) := by
  have hrefused : session.index.needsReopen = true → ∀ (later : Call) around,
      (later.perform root around).exec session = (.error Call.fenced, session) := by
    intro hfence later around
    rw [exec_perform]
    unfold ending
    rw [if_pos hfence]
  rw [exec_perform] at h
  unfold ending at h
  split at h
  · next hfence =>
    cases h
    exact ⟨rfl, .inl rfl, iff_of_true hfence (.inl hfence), hrefused⟩
  · next hopen =>
    split at h
    · next found hdamage =>
      cases h
      refine ⟨rfl, .inl rfl, iff_of_false hopen ?_, hrefused⟩
      rw [hdamage]
      rintro (hfence | ⟨hnone, -⟩)
      · exact hopen hfence
      · cases hnone
    · next hdamage =>
      dsimp only at h
      cases hprepare : call.prepare root around index.state with
      | error found =>
        rw [hprepare] at h
        cases h
        refine ⟨rfl, .inl rfl, iff_of_false hopen ?_, hrefused⟩
        rintro (hfence | ⟨-, next, hnext⟩)
        · exact hopen hfence
        · cases hnext
      | ok ready =>
        rw [hprepare] at h
        cases ready with
        | none => cases h
        | some next =>
          dsimp only at h
          cases houtcome : around.outcome with
          | done =>
            rw [houtcome] at h
            cases h
          | failed replaced found =>
            rw [houtcome] at h
            cases h
            refine ⟨rfl, ?_, iff_of_true rfl (.inr ⟨hdamage, next, rfl⟩), hrefused⟩
            cases replaced with
            | false => exact .inl rfl
            | true => exact .inr ⟨next, rfl, rfl⟩

/-- Where nothing stands in the way a call of a writable handle succeeds; only a refresh can find the
journal full. -/
lemma perform_succeeds (call : Call) (session : Session Op Ref Key)
    (hfence : session.index.needsReopen = false)
    (hmirrors : session.index.state.Mirrors d truth) (hhonest : Honest truth answers)
    (hhealthy : Healthy d answers) (hexpected : expected.Fresh d truth) :
    (∃ session', (call.perform root (calm d answers)).exec session = (.ok (), session')
        ∧ session'.index.state.Fresh d truth
        ∧ session.index.state.Onward root call.names session'.index.state)
      ∨ (call = .refresh
        ∧ (call.perform root (calm d answers)).exec session
          = (.error ChangeLog.exhausted, session)
        ∧ session.index.state.Full expected) := by
  have hopen : ¬ session.index.needsReopen = true := by
    rw [hfence]
    exact Bool.false_ne_true
  rw [exec_perform]
  unfold ending
  rw [if_neg hopen]
  unfold calm
  dsimp only
  cases call with
  | refresh =>
    unfold prepare
    dsimp only
    rcases hmirrors.advance_succeeds hhealthy hexpected.finished with
      ⟨next, delta, hadvance⟩ | ⟨herror, hfull⟩
    · obtain ⟨hnext, hcurrent, hfinished, -⟩ := hmirrors.advance hhonest hadvance
      rw [hadvance]
      dsimp only
      by_cases hnews : 0 < delta.work.records.bytesRead ∨ delta.contentChanged.isEmpty = false
      · rw [if_pos hnews]
        exact .inl ⟨_, rfl, ⟨hnext, hcurrent, hfinished⟩,
          .inr (.inl (hmirrors.follows.advance_reported hadvance))⟩
      · rw [if_neg hnews]
        rw [not_or, Nat.not_lt, Nat.le_zero, Bool.not_eq_false, ExtTreeSet.isEmpty_iff] at hnews
        exact .inl ⟨session, rfl, hmirrors.fresh_of_idle hhonest hadvance hnews.1 hnews.2,
          .inl rfl⟩
    · rw [herror]
      exact .inr ⟨rfl, rfl, hfull⟩
  | rebuild nanos process counter =>
    obtain ⟨built, hbuild⟩ : ∃ built : State Op Ref Key, _ :=
      State.build_succeeds root (generationName nanos process counter) hhealthy
    have hname := generationName_ne nanos process counter
    unfold prepare
    dsimp only
    rw [hbuild]
    exact .inl ⟨_, rfl, State.build_fresh hname hhonest hbuild,
      .inr (.inr ⟨_, rfl, (ChainIndex.build_leaves hname hbuild).1⟩)⟩

end Call

namespace ChainIndex

/-- Where nothing stands in the way a checkpoint is opened, unless its journal is full. -/
lemma openIndex_succeeds {state : State Op Ref Key} (hmirrors : state.Mirrors d truth)
    (hanchored : Tail.Anchored root d state.tail) (hhonest : Honest truth answers)
    (hhealthy : Healthy d answers) (hexpected : expected.Fresh d truth) (name : String) :
    (∃ index saved', (openIndex answering root name (calm d answers)
          (calm d answers)).exec (some state) = (.ok index, saved')
        ∧ index.state.Fresh d truth ∧ state.Onward root ∅ index.state)
      ∨ ((openIndex answering root name (calm d answers) (calm d answers)).exec (some state)
          = (.error ChangeLog.exhausted, some state)
        ∧ state.Full expected) := by
  have hrestore : (restore answering root name (calm d answers)).exec (some state)
      = (.ok state, some state) := by
    have hsame : state.changes.nameGeneration name = (state.changes, false) := by
      unfold ChangeLog.nameGeneration
      rw [if_pos hmirrors.follows.named]
    unfold restore calm
    rw [exec_bind_of_ok (exec_get _)]
    dsimp only
    rw [exec_bind, exec_lift, hanchored.resume_succeeds hmirrors.reaches]
    dsimp only
    rw [hsame]
    rfl
  have hcall : (∃ session', ((Call.refresh).perform root (calm d answers)).exec _ = _ ∧ _) ∨ _ :=
    Call.perform_succeeds .refresh ⟨some state, ⟨state, false⟩⟩ rfl hmirrors hhonest hhealthy
      hexpected
  rw [Call.exec_perform_refresh] at hcall
  unfold openIndex
  rw [exec_bind_of_ok hrestore, exec_bind_of_ok (exec_get _), exec_of]
  generalize (refresh answering (calm d answers)).exec ⟨some state, ⟨state, false⟩⟩
    = refreshed at hcall
  obtain ⟨refreshed, session⟩ := refreshed
  rcases hcall with ⟨session', hdone, hfresh, honward⟩ | ⟨-, hstopped, hfull⟩
  · cases refreshed with
    | error error => cases hdone
    | ok delta =>
      cases hdone
      exact .inl ⟨_, _, rfl, hfresh, honward⟩
  · cases refreshed with
    | error error =>
      cases hstopped
      exact .inr ⟨rfl, hfull⟩
    | ok delta => cases hstopped

end ChainIndex

/-! ## Failures -/

namespace Setting

variable {w w' : Setting Op Ref Key} {index : ChainIndex Op Ref Key}
  {session : Session Op Ref Key}

omit [LawfulEqOrd Ref] [DecidableEq Ref] in
/-- A call is a step, under the name that it gives. -/
lemma step_perform {call : Call} {names : Set String} (hnames : call.names ⊆ names)
    (hindex : w.handle = some index) (hhonest : Honest w.truth answers) {damage : Option IoError}
    {outcome : Publication} {result : Except IoError Unit}
    (hcall : (call.perform root ⟨w.directory, answers, damage, outcome⟩).exec ⟨w.saved, index⟩
      = (result, session)) :
    Step root names w { w with saved := session.saved, handle := some session.index } := by
  cases call with
  | refresh =>
    rw [Call.exec_perform_refresh] at hcall
    obtain ⟨-, hsession⟩ := Prod.mk.inj hcall
    rw [← hsession]
    exact .refresh damage outcome hhonest hindex rfl
  | rebuild nanos process counter =>
    rw [Call.exec_perform_rebuild] at hcall
    obtain ⟨-, hsession⟩ := Prod.mk.inj hcall
    rw [← hsession]
    exact .rebuild nanos process counter damage outcome (hnames rfl) hhonest hindex rfl

/-- However a refresh or a rebuild fails, at any state that an index can be in: the handle has the
state that it had; the checkpoint is the one before or the one that the call had ready, and so is
what the pages on disk say, whatever step of the commit failed; after a failed publication, and
only then, every further call is refused and changes nothing. And whatever happens next, as soon as
nothing stands in the way the index can be opened, and a handle that was not refused refreshed or
rebuilt, and has arrived at what a rebuild gives. Its journal goes on from the checkpoint that there
was before the call, which is the state of a handle that could write: refreshes report each change
once, and only a rebuild, of this call or a later one, begins a journal anew, under the name that it
gives. A journal without positions stops a refresh, but not a rebuild. -/
theorem failed_calls_are_atomic {d : Directory} {truth : Ref → ContentState}
    (hrun : Run root { directory := d, truth := truth } w) (hindex : w.handle = some index)
    (call : Call) (hhonest : Honest w.truth answers) {damage : Option IoError}
    {outcome : Publication} {error : IoError}
    (hfail : (call.perform root ⟨w.directory, answers, damage, outcome⟩).exec ⟨w.saved, index⟩
      = (.error error, session)) :
    session.index.state = index.state
      ∧ (session.saved = w.saved ∨ ∃ next, call.prepare root
          ⟨w.directory, answers, damage, outcome⟩ index.state = .ok (some next)
        ∧ session.saved = some next)
      ∧ (∀ {α : Type} [Blake3] [IndexPages.Ciborium α] (plain : State Op Ref Key →
          IndexPages.Plain α) (next : State Op Ref Key) (disk : IndexPages.Disk) (storage : ℕ)
          (value : IndexPages.Value α) stop,
        call.prepare root ⟨w.directory, answers, damage, outcome⟩ index.state = .ok (some next) →
        IndexPages.Lossless α → disk.Settled → IndexPages.Denotes disk (2 ^ 64) value (plain next) →
        IndexPages.Published disk storage (w.saved.map plain) →
        (IndexPages.commitUntil none storage value).exec disk
            = (((IndexPages.commit storage value).exec disk).1.map Prod.fst,
              ((IndexPages.commit storage value).exec disk).2)
        ∧ wp (IndexPages.commitUntil stop storage value)
          (fun _ disk' => (IndexPages.Plain.page (plain next)).Fits →
            IndexPages.Published disk' storage (some (plain next)))
          (fun _ disk' => IndexPages.Published disk' storage (w.saved.map plain)
            ∨ ((IndexPages.Plain.page (plain next)).Fits →
              IndexPages.Published disk' storage (some (plain next)))) disk)
      ∧ (session.index.needsReopen = true ↔ index.needsReopen = true ∨ (damage = none
        ∧ ∃ next, call.prepare root ⟨w.directory, answers, damage, outcome⟩ index.state
          = .ok (some next)))
      ∧ (session.index.needsReopen = true → ∀ (later : Call) around,
        (later.perform root around).exec session = (.error Call.fenced, session))
      ∧ ∃ first, w.saved = some first ∧ (index.needsReopen = false → first = index.state)
        ∧ ∀ names w', Named root names { w with saved := session.saved, handle := some session.index }
          w' → ∀ answers', Honest w'.truth answers' → Healthy w'.directory answers' →
        ∀ nanos process counter, ∃ expected,
          (State.build answering root w'.directory (generationName nanos process counter)).exec
              answers' = (.ok expected, answers')
          ∧ (∃ saved, w'.saved = some saved
            ∧ ((∃ index' saved', (ChainIndex.openIndex answering root
                  (generationName nanos process counter) (calm w'.directory answers')
                  (calm w'.directory answers')).exec w'.saved = (.ok index', saved')
                ∧ State.Recovers root (call.names ∪ names) first expected index'.state)
              ∨ ((ChainIndex.openIndex answering root (generationName nanos process counter)
                  (calm w'.directory answers') (calm w'.directory answers')).exec w'.saved
                  = (.error ChangeLog.exhausted, w'.saved)
                ∧ saved.Full expected)))
          ∧ ∀ index', w'.handle = some index' → index'.needsReopen = false → ∀ later : Call,
            (∃ session', (later.perform root (calm w'.directory answers')).exec
                ⟨w'.saved, index'⟩ = (.ok (), session')
              ∧ State.Recovers root (call.names ∪ names ∪ later.names) first expected
                session'.index.state)
            ∨ (later = .refresh ∧ (later.perform root (calm w'.directory answers')).exec
                ⟨w'.saved, index'⟩ = (.error ChangeLog.exhausted, ⟨w'.saved, index'⟩)
              ∧ index'.state.Full expected) := by
  have hempty : Moored root ({ directory := d, truth := truth } : Setting Op Ref Key) :=
    ⟨⟨nofun, nofun⟩, nofun, nofun, nofun⟩
  have hmoored := Named.moored hempty hrun
  obtain ⟨-, first, hfirst⟩ := hmoored.handle index hindex
  have hends := Call.ending_of_error hfail
  refine ⟨hends.1, hends.2.1, ?_, hends.2.2.1, hends.2.2.2, first, hfirst, ?_, ?_⟩
  · intro α _ _ plain next disk storage value stop _ hlossless hsettled hdenotes hpublished
    exact ⟨IndexPages.exec_commitUntil_none,
      IndexPages.wp_commitUntil hlossless hsettled hdenotes hpublished⟩
  · intro hopen
    have hsame : w.saved = some index.state := hmoored.synced index hindex hopen
    exact Option.some.inj (hfirst.symm.trans hsame)
  · intro names w' hlater answers' hhonest' hhealthy nanos process counter
    have hstep : Step root (call.names ∪ names) w
        { w with saved := session.saved, handle := some session.index } :=
      step_perform Set.subset_union_left hindex hhonest hfail
    have hall : Named root (call.names ∪ names)
        { w with saved := session.saved, handle := some session.index } w' :=
      Named.mono Set.subset_union_right hlater
    have hmoored' := Named.moored (Step.moored hmoored hstep) hall
    obtain ⟨saved, hsaved, htold⟩ := Named.since (Step.moored hmoored hstep)
      (Step.since hmoored ⟨first, hfirst, .refl _⟩ hstep) hall
    obtain ⟨k, -, hreadable⟩ := hhealthy.readable
    obtain ⟨expected, hbuild⟩ : ∃ expected : State Op Ref Key, _ :=
      State.build_succeeds root (generationName nanos process counter) hhealthy
    have hexpected := State.build_fresh (generationName_ne nanos process counter) hhonest' hbuild
    refine ⟨expected, hbuild, ⟨saved, hsaved, ?_⟩, fun index' hindex' hopen later => ?_⟩
    · rw [hsaved]
      rcases ChainIndex.openIndex_succeeds (hmoored'.sound.saved saved hsaved)
          (hmoored'.saved saved hsaved) hhonest' hhealthy hexpected
          (generationName nanos process counter) with
        ⟨index', saved', hopened, hfresh, honward⟩ | hfull
      · exact .inl ⟨index', saved', hopened, hfresh.matches hexpected hreadable.dense,
          htold.onward (honward.mono (Set.empty_subset _))⟩
      · exact .inr hfull
    · have hsame : w'.saved = some index'.state := hmoored'.synced index' hindex' hopen
      obtain rfl := Option.some.inj (hsaved.symm.trans hsame)
      rcases Call.perform_succeeds later ⟨w'.saved, index'⟩ hopen
          (hmoored'.sound.handle index' hindex') hhonest' hhealthy hexpected with
        ⟨session', hdone, hfresh, honward⟩ | hfull
      · exact .inl ⟨session', hdone, hfresh.matches hexpected hreadable.dense,
          (htold.mono Set.subset_union_left).onward (honward.mono Set.subset_union_right)⟩
      · exact .inr hfull

end Setting
end EditChain.Index

namespace EditChain.Index.Setting

open Core Fallible Store

section Witness

local instance atomicSchema : Schema OpId := messageSchema
local instance atomicChecksum : Checksum := crc32cChecksum

/-- Messages that refer to one content. -/
local instance atomicIndex : IndexSchema OpId ℕ ℕ where
  references _ := [0]
  keys _ _ := []
  items _ := []
  aliases _ := []

/-- The index of an empty chain, as it is opened for the first time. -/
def openedBefore : Except IoError (ChainIndex OpId ℕ ℕ) × Option (State OpId ℕ ℕ) :=
  (ChainIndex.openIndex answering "/chain" (generationName 1 2 3) (messageAround Directory.empty)
    (messageAround Directory.empty)).exec none

/-- The first message has arrived, and its publication fails after the root was replaced. -/
def unsynced : Surroundings (Answers ℕ) :=
  ⟨oneSegment messageFrame 2, unarrived, none, .failed true ⟨.other, "Input/output error"⟩⟩

/-- The refresh that fails leaves the handle as it was, and refused from then on. -/
theorem failed_calls_are_atomic_message :
    ∃ (w : Setting OpId ℕ ℕ) (index : ChainIndex OpId ℕ ℕ) (error : IoError)
      (session : Session OpId ℕ ℕ),
      Run "/chain" { directory := Directory.empty, truth := fun _ => .missing } w
        ∧ w.handle = some index
        ∧ ((Call.refresh).perform "/chain" unsynced).exec ⟨w.saved, index⟩ = (.error error, session)
        ∧ session.index.needsReopen = true ∧ session.index.state = index.state
        ∧ ∀ (later : Call) around,
          (later.perform "/chain" around).exec session = (.error Call.fenced, session) := by
  have hhonest : Honest (fun _ => ContentState.missing) unarrived := .of_eq fun _ => rfl
  have hopened : openedBefore.1.toOption.isSome = true := rfl
  obtain ⟨index, hindex⟩ := Option.isSome_iff_exists.mp hopened
  have hrun : Run "/chain" { directory := Directory.empty, truth := fun _ => .missing }
      (⟨oneSegment messageFrame 2, fun _ => .missing, openedBefore.2, openedBefore.1.toOption⟩
        : Setting OpId ℕ ℕ) :=
    (Relation.ReflTransGen.single (.openIndex 1 2 3 (messageAround Directory.empty)
      (messageAround Directory.empty) rfl rfl rfl hhonest hhonest rfl)).tail
        (.grow (.of_empty _) fun _ h => h)
  have hfails : (openedBefore.1.toOption.any fun index =>
      match ((Call.refresh).perform "/chain" unsynced).exec ⟨openedBefore.2, index⟩ with
      | (.error _, session) => session.index.needsReopen
      | (.ok _, _) => false) = true := by
    decide +kernel
  rw [hindex, Option.any_some] at hfails
  generalize hcalled : ((Call.refresh).perform "/chain" unsynced).exec ⟨openedBefore.2, index⟩
    = called at hfails
  obtain ⟨called, session⟩ := called
  cases called with
  | ok done => cases hfails
  | error error =>
    obtain ⟨hstate, -, -, -, hrefused, -⟩ :=
      failed_calls_are_atomic hrun hindex .refresh hhonest hcalled
    exact ⟨_, index, error, session, hrun, hindex, hcalled, hfails, hstate, hrefused hfails⟩

end Witness
end EditChain.Index.Setting
