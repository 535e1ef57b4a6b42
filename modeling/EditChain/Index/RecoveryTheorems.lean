import EditChain.Index.RebuildTheorems
import EditChain.Index.ResumeTheorems
import EditChain.Index.SuccessTheorems

/-!
# Failed calls

A refresh or a rebuild that fails leaves the handle as it was, and the checkpoint as it was or
complete. After a failed publication the handle writes no more. When nothing stands in the way any
longer, the index goes on from there, and its journal still tells every change once.
-/

namespace EditChain.Index

open Core Fallible Store
open Std (ExtTreeMap ExtTreeSet TransOrd LawfulEqOrd)

variable {Op Ref Key : Type} [Schema Op] [Checksum] [IndexSchema Op Ref Key] [DecidableEq Key]
  [Ord Ref] [TransOrd Ref] [LawfulEqOrd Ref] [DecidableEq Ref]

/-! ## Journals over several calls -/

namespace State

variable {a b c : State Op Ref Key}

/-- A refresh leads from one state to the next, and reports no identity twice. -/
def Reported (before after : State Op Ref Key) : Prop :=
  ∃ delta : IndexDelta, Reports delta before after
    ∧ (delta.changes.map IndexChange.operation).Nodup

/-- What a rebuild makes: its journal is empty, and begins the generation that the call names. -/
structure Built (root name : String) (state : State Op Ref Key) : Prop where
  journal : state.changes = { revision := ⟨name, 0⟩ }
  made : ∃ d answers answers', (build answering root d name).exec answers = (.ok state, answers')

variable (root : String) (names : Set String)

/-- The journal of a state goes on from an earlier state, refresh by refresh, or from the state of a
rebuild under one of the given names. -/
def Told (before after : State Op Ref Key) : Prop :=
  ∃ start, (start = before ∨ ∃ name ∈ names, start.Built root name)
    ∧ Relation.ReflTransGen Reported start after

/-- A state is kept, or a refresh or a rebuild led on from it. -/
def Onward (before after : State Op Ref Key) : Prop :=
  after = before ∨ Reported before after ∨ ∃ name ∈ names, after.Built root name

variable {root : String} {names names' : Set String} {d : Directory} {σ : Type}
  {source : Ref → Fallible IoError σ ContentState} {s s' : σ}

omit [LawfulEqOrd Ref] [DecidableEq Ref] in
lemma Told.refl (state : State Op Ref Key) : Told root names state state :=
  ⟨state, .inl rfl, .refl⟩

omit [LawfulEqOrd Ref] [DecidableEq Ref] in
lemma Told.onward (hab : Told root names a b) (hbc : Onward root names b c) :
    Told root names a c := by
  obtain ⟨start, hstart, hrun⟩ := hab
  rcases hbc with rfl | hreported | hbuilt
  · exact ⟨start, hstart, hrun⟩
  · exact ⟨start, hstart, hrun.tail hreported⟩
  · exact ⟨c, .inr hbuilt, .refl⟩

omit [LawfulEqOrd Ref] [DecidableEq Ref] in
lemma Told.mono (hnames : names ⊆ names') (h : Told root names a b) : Told root names' a b := by
  obtain ⟨start, rfl | ⟨name, hname, hbuilt⟩, hrun⟩ := h
  · exact ⟨start, .inl rfl, hrun⟩
  · exact ⟨start, .inr ⟨name, hnames hname, hbuilt⟩, hrun⟩

omit [LawfulEqOrd Ref] [DecidableEq Ref] in
lemma Onward.mono (hnames : names ⊆ names') (h : Onward root names a b) :
    Onward root names' a b := by
  rcases h with rfl | hreported | ⟨name, hname, hbuilt⟩
  · exact .inl rfl
  · exact .inr (.inl hreported)
  · exact .inr (.inr ⟨name, hnames hname, hbuilt⟩)

lemma Follows.advance_reported {delta : IndexDelta} (h : a.Follows d)
    (hexec : (a.advance source d).exec s = (.ok (b, delta), s')) : Reported a b :=
  ⟨delta, (h.advance hexec).2.1, h.advance_once hexec⟩

end State

/-! ## Calls -/

/-- The calls that write. -/
inductive Call where
  | refresh
  | rebuild (nanos process counter : ℕ)

namespace Call

open ChainIndex

variable (root : String) (around : Surroundings (Answers Ref))

/-- Make a call. -/
def perform : Call → Fallible IoError (Session Op Ref Key) Unit
  | .refresh => do
    let _ ← ChainIndex.refresh answering around
    return ()
  | .rebuild nanos process counter => do
    let _ ← ChainIndex.rebuild answering root (generationName nanos process counter) around
    return ()

/-- The state that a call has ready for publication, if there is anything to publish. -/
def prepare (state : State Op Ref Key) : Call → Except IoError (Option (State Op Ref Key))
  | .refresh =>
    match ((state.advance answering around.directory).exec around.blobs).1 with
    | .error error => .error error
    | .ok (next, delta) =>
      if 0 < delta.work.records.bytesRead ∨ delta.contentChanged.isEmpty = false then
        .ok (some next)
      else .ok none
  | .rebuild nanos process counter => do
    let built ← ((State.build answering root around.directory
      (generationName nanos process counter)).exec around.blobs).1
    return some built

/-- `check_writable`, of a handle whose last publication failed. -/
def fenced : IoError := ⟨.other, "reopen the chain index after a failed checkpoint publication"⟩

/-- How a call ends. -/
def ending (call : Call) (session : Session Op Ref Key) :
    Except IoError Unit × Session Op Ref Key :=
  if session.index.needsReopen then (.error fenced, session)
  else
    match around.damage with
    | some error => (.error error, session)
    | none =>
      match call.prepare root around session.index.state with
      | .error error => (.error error, session)
      | .ok none => (.ok (), session)
      | .ok (some next) =>
        match around.outcome with
        | .done => (.ok (), ⟨some next, ⟨next, false⟩⟩)
        | .failed replaced error =>
          (.error error,
            ⟨if replaced then some next else session.saved, ⟨session.index.state, true⟩⟩)

variable {root : String} {around : Surroundings (Answers Ref)} {session session' : Session Op Ref Key}

omit [LawfulEqOrd Ref] [DecidableEq Ref] in
lemma exec_perform (call : Call) :
    (call.perform root around).exec session = call.ending root around session := by
  obtain ⟨saved, state, needsReopen⟩ := session
  obtain ⟨d, blobs, damage, outcome⟩ := around
  unfold ending
  cases call with
  | refresh =>
    unfold perform ChainIndex.refresh prepare
    cases needsReopen with
    | true => rfl
    | false =>
      cases damage with
      | some error => rfl
      | none =>
        dsimp only
        simp only [exec_bind_of_ok (exec_get _), bind_assoc]
        unfold checkWritable
        generalize ((state.advance answering d).exec blobs).1 = advanced
        cases advanced with
        | error error => rfl
        | ok pair =>
          obtain ⟨next, delta⟩ := pair
          by_cases hnews : 0 < delta.work.records.bytesRead
              ∨ delta.contentChanged.isEmpty = false
          · simp only [exec_bind, exec_lift, Option.elim, Bool.false_eq_true, if_false,
              if_pos hnews, exec_publish]
            cases outcome with
            | done => rfl
            | failed replaced error => cases replaced <;> rfl
          · simp only [exec_bind, exec_lift, Option.elim, Bool.false_eq_true, if_false,
              if_neg hnews]
            rfl
  | rebuild nanos process counter =>
    unfold perform ChainIndex.rebuild prepare
    cases needsReopen with
    | true => rfl
    | false =>
      cases damage with
      | some error => rfl
      | none =>
        dsimp only
        simp only [exec_bind_of_ok (exec_get _), bind_assoc]
        generalize ((State.build answering root d
          (generationName nanos process counter)).exec blobs).1 = built
        cases built with
        | error error => rfl
        | ok built =>
          cases outcome with
          | done => rfl
          | failed replaced error => cases replaced <;> rfl

omit [LawfulEqOrd Ref] [DecidableEq Ref] in
lemma exec_perform_refresh : ((Call.refresh).perform root around).exec session
    = (((ChainIndex.refresh answering around).exec session).1.map fun _ => (),
      ((ChainIndex.refresh answering around).exec session).2) := by
  unfold perform
  rw [exec_bind]
  cases (ChainIndex.refresh answering around).exec session with
  | mk result session' => cases result <;> rfl

omit [LawfulEqOrd Ref] [DecidableEq Ref] in
lemma exec_perform_rebuild {nanos process counter : ℕ} :
    ((Call.rebuild nanos process counter).perform root around).exec session
      = (((ChainIndex.rebuild answering root (generationName nanos process counter)
          around).exec session).1.map fun _ => (),
        ((ChainIndex.rebuild answering root (generationName nanos process counter)
          around).exec session).2) := by
  unfold perform
  rw [exec_bind]
  cases (ChainIndex.rebuild answering root (generationName nanos process counter)
    around).exec session with
  | mk result session' => cases result <;> rfl

end Call

/-! ## Checkpoints and handles -/

/-- The checkpoint is the state of the handle, unless the handle is fenced. -/
def Session.Synced (session : Session Op Ref Key) : Prop :=
  session.index.needsReopen = false → session.saved = some session.index.state

namespace Call

variable {root : String} {around : Surroundings (Answers Ref)} {session : Session Op Ref Key}

omit [LawfulEqOrd Ref] [DecidableEq Ref] in
lemma ending_synced (call : Call) (h : session.Synced) :
    (call.ending root around session).2.Synced := by
  unfold ending
  split
  · exact h
  · split
    · exact h
    · split
      · exact h
      · exact h
      · split
        · exact fun _ => rfl
        · exact fun hopen => absurd hopen (by simp)

omit [LawfulEqOrd Ref] [DecidableEq Ref] in
/-- A call that succeeds leaves a handle that is not fenced. -/
lemma ending_open (call : Call) {session' : Session Op Ref Key}
    (h : call.ending root around session = (.ok (), session')) :
    session'.index.needsReopen = false := by
  unfold ending at h
  split at h
  · cases h
  · next hopen =>
    split at h
    · cases h
    · split at h
      · cases h
      · cases h
        exact Bool.eq_false_iff.mpr hopen
      · split at h
        · cases h
          rfl
        · cases h

end Call

namespace ChainIndex

variable {root : String} {around : Surroundings (Answers Ref)} {session : Session Op Ref Key}
  {saved : Option (State Op Ref Key)} {index : ChainIndex Op Ref Key}

omit [LawfulEqOrd Ref] [DecidableEq Ref] in
lemma refresh_synced {result : Except IoError IndexDelta} (hsynced : Session.Synced ⟨saved, index⟩)
    (h : (refresh answering around).exec ⟨saved, index⟩ = (result, session)) :
    session.Synced ∧ ∀ delta, result = .ok delta → session.index.needsReopen = false := by
  have hends : Call.refresh.ending "" around ⟨saved, index⟩
      = (result.map fun _ => (), session) := by
    rw [← Call.exec_perform, Call.exec_perform_refresh, h]
  have hsynced' : (Call.refresh.ending "" around ⟨saved, index⟩).2.Synced :=
    Call.ending_synced .refresh hsynced
  rw [hends] at hsynced'
  refine ⟨hsynced', fun delta hdelta => ?_⟩
  rw [hdelta] at hends
  exact Call.ending_open .refresh hends

omit [LawfulEqOrd Ref] [DecidableEq Ref] in
lemma rebuild_synced {nanos process counter : ℕ} {result : Except IoError ChainReadStats}
    (hsynced : Session.Synced ⟨saved, index⟩)
    (h : (rebuild answering root (generationName nanos process counter) around).exec ⟨saved, index⟩
      = (result, session)) : session.Synced := by
  have hends : (Call.rebuild nanos process counter).ending root around ⟨saved, index⟩
      = (result.map fun _ => (), session) := by
    rw [← Call.exec_perform, Call.exec_perform_rebuild, h]
  have hsynced' : ((Call.rebuild nanos process counter).ending root around
      ⟨saved, index⟩).2.Synced := Call.ending_synced _ hsynced
  rw [hends] at hsynced'
  exact hsynced'

end ChainIndex

/-! ## What a call leaves behind -/

namespace ChainIndex

variable {root : String} {d : Directory} {truth : Ref → ContentState}
  {around again : Surroundings (Answers Ref)} {saved saved' : Option (State Op Ref Key)}
  {index : ChainIndex Op Ref Key} {session : Session Op Ref Key}

/-- What a call leaves: everything as it was, or, from a handle that is not fenced, another
checkpoint that goes on from the state of the handle, which may be the state of the handle now. -/
def Leaves (root : String) (names : Set String) (d : Directory)
    (saved : Option (State Op Ref Key)) (index : ChainIndex Op Ref Key)
    (session : Session Op Ref Key) : Prop :=
  session.saved = saved ∧ session.index.state = index.state
    ∨ index.needsReopen = false ∧ ∃ next, State.Onward root names index.state next
      ∧ Tail.Anchored root d next.tail ∧ session.saved = some next
      ∧ (session.index.state = index.state ∨ session.index.state = next)

omit [Schema Op] [Checksum] [IndexSchema Op Ref Key] [DecidableEq Key] [TransOrd Ref]
  [LawfulEqOrd Ref] [DecidableEq Ref] in
lemma checkWritable_fenced (hfence : index.needsReopen = true) :
    index.checkWritable = .error Call.fenced := by
  unfold checkWritable
  rw [if_pos hfence]
  rfl

lemma refresh_leaves {names : Set String} {result : Except IoError IndexDelta}
    (hstate : index.state.Mirrors around.directory truth)
    (hanchored : Tail.Anchored root around.directory index.state.tail)
    (h : (refresh answering around).exec ⟨saved, index⟩ = (result, session)) :
    Leaves root names around.directory saved index session := by
  cases hfence : index.needsReopen with
  | true =>
    unfold refresh at h
    rw [exec_bind_of_ok (exec_get _)] at h
    dsimp only at h
    rw [exec_bind, exec_lift, checkWritable_fenced hfence] at h
    cases h
    exact .inl ⟨rfl, rfl⟩
  | false =>
    rcases refresh_cases h with ⟨hkept, hsame, -⟩ | ⟨next, delta, s', hadvance, hnext, hcases⟩
    · exact .inl ⟨hkept, hsame⟩
    · obtain ⟨records, hdrain⟩ := hstate.follows.advance_drains hadvance
      refine .inr ⟨hfence, next, .inr (.inl (hstate.follows.advance_reported hadvance)),
        Tail.drainLoop_anchored _ hanchored hstate.reaches hdrain, hnext, ?_⟩
      rcases hcases with ⟨hsame, -⟩ | ⟨hsame, -⟩
      · exact .inl hsame
      · exact .inr hsame

lemma build_leaves {name : String} (hname : name ≠ "") {built : State Op Ref Key}
    {answers answers' : Answers Ref}
    (h : (State.build answering root d name).exec answers = (.ok built, answers')) :
    built.Built root name ∧ Tail.Anchored root d built.tail := by
  obtain ⟨records, hdrain⟩ := State.build_drains h
  exact ⟨⟨(State.build_follows hname h).2, d, answers, answers', h⟩,
    Tail.drainLoop_anchored _ (Tail.anchored_empty d root) (Tail.reaches_empty d root) hdrain⟩

lemma rebuild_leaves {names : Set String} {name : String} (hname : name ≠ "")
    (hnamed : name ∈ names) {result : Except IoError ChainReadStats}
    (h : (rebuild answering root name around).exec ⟨saved, index⟩ = (result, session)) :
    Leaves root names around.directory saved index session := by
  cases hfence : index.needsReopen with
  | true =>
    unfold rebuild at h
    rw [exec_bind_of_ok (exec_get _)] at h
    dsimp only at h
    rw [exec_bind, exec_lift, checkWritable_fenced hfence] at h
    cases h
    exact .inl ⟨rfl, rfl⟩
  | false =>
    rcases rebuild_cases h with ⟨hkept, hsame, -⟩ | ⟨built, s', hbuild, hnext, hcases⟩
    · exact .inl ⟨hkept, hsame⟩
    · obtain ⟨hbuilt, hanchored⟩ := build_leaves hname hbuild
      refine .inr ⟨hfence, built, .inr (.inr ⟨name, hnamed, hbuilt⟩), hanchored, hnext, ?_⟩
      rcases hcases with ⟨hsame, -⟩ | ⟨hsame, -⟩
      · exact .inl hsame
      · exact .inr hsame

/-- What opening leaves. -/
lemma openIndex_leaves {names : Set String} {name : String} {result : Except IoError (ChainIndex Op Ref Key)}
    (hd : around.directory = d) (hd' : again.directory = d) (hname : name ≠ "")
    (hhonest : Honest truth around.blobs)
    (hsaved : ∀ state, saved = some state → state.Mirrors d truth
      ∧ Tail.Anchored root d state.tail)
    (h : (openIndex answering root name around again).exec saved = (result, saved')) :
    (∀ state, saved' = some state → Tail.Anchored root d state.tail)
      ∧ (∀ state, saved = some state → ∃ state', saved' = some state'
        ∧ state.Onward root names state')
      ∧ ∀ index, result = .ok index → Tail.Anchored root d index.state.tail
        ∧ ∃ state', saved' = some state' := by
  unfold openIndex at h
  rw [exec_bind] at h
  generalize hrestore : (restore answering root name around).exec saved = restored at h
  obtain ⟨restored, middle⟩ := restored
  obtain ⟨hhandle, hcheckpoint⟩ :=
    restore_cases hd (fun state hstate => (hsaved state hstate).1.follows) hrestore
  have hmiddle : ∀ state, middle = some state → state.Mirrors d truth
      ∧ Tail.Anchored root d state.tail := by
    intro state hstate
    rcases hcheckpoint with hsame | ⟨-, found, s', hfound, hbuild⟩
    · exact hsaved state (hsame ▸ hstate)
    · rw [hfound] at hstate
      cases hstate
      exact ⟨(State.build_mirrors hname hhonest hbuild).1, (build_leaves hname hbuild).2⟩
  have hkept : ∀ state, saved = some state → middle = some state := by
    intro state hstate
    rcases hcheckpoint with hsame | ⟨hnone, -⟩
    · exact hsame.trans hstate
    · rw [hnone] at hstate
      cases hstate
  cases restored with
  | error error =>
    cases h
    exact ⟨fun state hstate => (hmiddle state hstate).2,
      fun state hstate => ⟨state, hkept state hstate, .inl rfl⟩, nofun⟩
  | ok state =>
    have hstate := hhandle state rfl
    obtain ⟨hmirrors, hanchored⟩ := hmiddle state hstate
    have hsame : ∀ old, saved = some old → old = state := by
      intro old hold
      have hboth := hkept old hold
      rw [hstate] at hboth
      exact (Option.some.inj hboth).symm
    dsimp only at h
    rw [exec_bind_of_ok (exec_get _), exec_of] at h
    generalize hrefresh : (refresh answering again).exec ⟨middle, ⟨state, false⟩⟩ = refreshed at h
    obtain ⟨refreshed, session⟩ := refreshed
    subst hd'
    have hleaves : Leaves root names again.directory middle ⟨state, false⟩ session :=
      refresh_leaves hmirrors hanchored hrefresh
    -- both the checkpoint and the handle go on from the state that was restored
    have hboth : ∃ next, session.saved = some next ∧ state.Onward root names next
        ∧ Tail.Anchored root again.directory next.tail
        ∧ Tail.Anchored root again.directory session.index.state.tail := by
      rcases hleaves with ⟨hfirst, hsecond⟩ | ⟨-, next, honward, hnext, hfirst, hsecond⟩
      · rw [hsecond]
        exact ⟨state, hfirst.trans hstate, .inl rfl, hanchored, hanchored⟩
      · rcases hsecond with hsecond | hsecond
        · rw [hsecond]
          exact ⟨next, hfirst, honward, hnext, hanchored⟩
        · rw [hsecond]
          exact ⟨next, hfirst, honward, hnext, hnext⟩
    obtain ⟨next, hfirst, honward, hnext, hfrontier⟩ := hboth
    have hall : ∀ other, session.saved = some other →
        Tail.Anchored root again.directory other.tail := by
      intro other hother
      rw [hfirst] at hother
      cases hother
      exact hnext
    have hon : ∀ old, saved = some old → ∃ state', session.saved = some state'
        ∧ old.Onward root names state' := by
      intro old hold
      rw [hsame old hold]
      exact ⟨next, hfirst, honward⟩
    cases refreshed with
    | error error =>
      cases h
      exact ⟨hall, hon, nofun⟩
    | ok delta =>
      cases h
      refine ⟨hall, hon, fun index hindex => ?_⟩
      cases hindex
      exact ⟨hfrontier, next, hfirst⟩

end ChainIndex

/-! ## Runs -/

namespace Setting

variable {root : String} {names names' : Set String} {w w' : Setting Op Ref Key}
  {index : ChainIndex Op Ref Key} {first : State Op Ref Key}

/-- The checkpoint is the state of a handle that is not fenced. -/
def Synced (w : Setting Op Ref Key) : Prop :=
  ∀ index, w.handle = some index → Session.Synced ⟨w.saved, index⟩

omit [LawfulEqOrd Ref] [DecidableEq Ref] in
lemma Step.synced (h : Synced w) (hsound : Sound w) (hstep : Step root names w w') : Synced w' := by
  cases hstep with
  | grow hgrows hstays => exact h
  | refresh damage outcome hhonest hindex hrefresh =>
    intro other hother
    cases hother
    exact (ChainIndex.refresh_synced (h _ hindex) hrefresh).1
  | rebuild nanos process counter damage outcome hname hhonest hindex hrebuild =>
    intro other hother
    cases hother
    exact ChainIndex.rebuild_synced (h _ hindex) hrebuild
  | close => exact nofun
  | openIndex nanos process counter around again hnone hd hd' hhonest hhonest' hopen =>
    intro index hindex
    rw [toOption_eq_some] at hindex
    subst hindex
    unfold ChainIndex.openIndex at hopen
    obtain ⟨state, middle, hrestore, hlater⟩ := exec_bind_eq_ok.mp hopen
    have hmiddle := (ChainIndex.restore_cases hd
      (fun state hstate => (hsound.saved state hstate).follows) hrestore).1 state rfl
    rw [exec_bind_of_ok (exec_get _), exec_of] at hlater
    generalize hrefresh : (ChainIndex.refresh answering again).exec ⟨middle, ⟨state, false⟩⟩
      = refreshed at hlater
    obtain ⟨refreshed, session⟩ := refreshed
    -- what is restored or built was published, and the refresh publishes what it changes
    have hsynced := (ChainIndex.refresh_synced (fun _ => hmiddle) hrefresh).1
    cases refreshed with
    | error error => cases hlater
    | ok delta =>
      cases hlater
      exact hsynced

lemma Run.synced {d : Directory} {truth : Ref → ContentState}
    (hrun : Run root { directory := d, truth := truth } w) : Synced w := by
  induction hrun with
  | refl => exact nofun
  | tail hbefore hstep ih => exact Step.synced ih (Run.from_empty hbefore) hstep

/-- The checkpoint and the handle are sound, the checkpoint is the state of a handle that is not
fenced, and the frontiers of both can be resumed. -/
structure Moored (root : String) (w : Setting Op Ref Key) : Prop where
  sound : Sound w
  synced : Synced w
  saved : ∀ state, w.saved = some state → Tail.Anchored root w.directory state.tail
  handle : ∀ index, w.handle = some index → Tail.Anchored root w.directory index.state.tail
    ∧ ∃ state, w.saved = some state

omit [LawfulEqOrd Ref] [DecidableEq Ref] in
lemma Moored.leaves (h : Moored root w) (hindex : w.handle = some index)
    {session : Session Op Ref Key}
    (hleaves : ChainIndex.Leaves root names w.directory w.saved index session) :
    (∀ state, session.saved = some state → Tail.Anchored root w.directory state.tail)
      ∧ Tail.Anchored root w.directory session.index.state.tail
      ∧ ∃ state, session.saved = some state := by
  obtain ⟨hanchored, hahead⟩ := h.handle index hindex
  rcases hleaves with ⟨hkept, hstate⟩ | ⟨-, next, -, hnext, hsaved, hcases⟩
  · rw [hkept, hstate]
    exact ⟨h.saved, hanchored, hahead⟩
  · refine ⟨fun state hstate => ?_, ?_, next, hsaved⟩
    · rw [hsaved] at hstate
      cases hstate
      exact hnext
    · rcases hcases with hstate | hstate
      · rw [hstate]
        exact hanchored
      · rw [hstate]
        exact hnext

lemma Step.moored (h : Moored root w) (hstep : Step root names w w') : Moored root w' := by
  have hsound := Step.sound h.sound hstep
  have hsynced := Step.synced h.synced h.sound hstep
  cases hstep with
  | grow hgrows hstays =>
    refine ⟨hsound, hsynced, fun state hstate => ?_, fun index hindex => ?_⟩
    · exact (h.saved state hstate).grows (h.sound.saved state hstate).reaches hgrows
    · obtain ⟨hanchored, hahead⟩ := h.handle index hindex
      exact ⟨hanchored.grows (h.sound.handle index hindex).reaches hgrows, hahead⟩
  | refresh damage outcome hhonest hindex hrefresh =>
    have hleaves : ChainIndex.Leaves root names _ _ _ _ :=
      ChainIndex.refresh_leaves (h.sound.handle _ hindex) (h.handle _ hindex).1 hrefresh
    obtain ⟨hsaved, hhandle⟩ := h.leaves hindex hleaves
    refine ⟨hsound, hsynced, hsaved, fun other hother => ?_⟩
    cases hother
    exact hhandle
  | rebuild nanos process counter damage outcome hname hhonest hindex hrebuild =>
    obtain ⟨hsaved, hhandle⟩ := h.leaves hindex (ChainIndex.rebuild_leaves
      (generationName_ne nanos process counter) hname hrebuild)
    refine ⟨hsound, hsynced, hsaved, fun other hother => ?_⟩
    cases hother
    exact hhandle
  | close => exact ⟨hsound, hsynced, h.saved, nofun⟩
  | openIndex nanos process counter around again hnone hd hd' hhonest hhonest' hopen =>
    have hleaves : _ ∧ (∀ state, w.saved = some state → ∃ state', _ ∧
        State.Onward root names state state') ∧ _ :=
      ChainIndex.openIndex_leaves hd hd' (generationName_ne nanos process counter) hhonest
        (fun state hstate => ⟨h.sound.saved state hstate, h.saved state hstate⟩) hopen
    obtain ⟨hsaved, -, hopened⟩ := hleaves
    exact ⟨hsound, hsynced, hsaved,
      fun index hindex => hopened index (toOption_eq_some.mp hindex)⟩

/-- The checkpoint goes on from a state. -/
def Since (root : String) (names : Set String) (first : State Op Ref Key)
    (w : Setting Op Ref Key) : Prop :=
  ∃ state, w.saved = some state ∧ State.Told root names first state

omit [LawfulEqOrd Ref] [DecidableEq Ref] in
lemma Since.leaves (h : Since root names first w) (hsynced : Synced w) {d : Directory}
    (hindex : w.handle = some index) {session : Session Op Ref Key}
    (hleaves : ChainIndex.Leaves root names d w.saved index session) :
    ∃ state, session.saved = some state ∧ State.Told root names first state := by
  obtain ⟨state, hstate, htold⟩ := h
  rcases hleaves with ⟨hkept, -⟩ | ⟨hopen, next, honward, -, hnext, -⟩
  · exact ⟨state, hkept.trans hstate, htold⟩
  · have hsame : w.saved = some index.state := hsynced index hindex hopen
    obtain rfl := Option.some.inj (hstate.symm.trans hsame)
    exact ⟨next, hnext, htold.onward honward⟩

lemma Step.since (h : Moored root w) (hsince : Since root names first w)
    (hstep : Step root names w w') : Since root names first w' := by
  cases hstep with
  | grow hgrows hstays => exact hsince
  | refresh damage outcome hhonest hindex hrefresh =>
    exact hsince.leaves h.synced hindex (ChainIndex.refresh_leaves (h.sound.handle _ hindex)
      (h.handle _ hindex).1 hrefresh)
  | rebuild nanos process counter damage outcome hname hhonest hindex hrebuild =>
    exact hsince.leaves h.synced hindex (ChainIndex.rebuild_leaves
      (generationName_ne nanos process counter) hname hrebuild)
  | close => exact hsince
  | openIndex nanos process counter around again hnone hd hd' hhonest hhonest' hopen =>
    obtain ⟨-, hkept, -⟩ := ChainIndex.openIndex_leaves hd hd'
      (generationName_ne nanos process counter) hhonest
      (fun state hstate => ⟨h.sound.saved state hstate, h.saved state hstate⟩) hopen
    obtain ⟨state, hstate, htold⟩ := hsince
    obtain ⟨state', hstate', honward⟩ := hkept state hstate
    exact ⟨state', hstate', htold.onward honward⟩

/-- Every run keeps the index moored. -/
lemma Named.moored (h : Moored root w) (hrun : Named root names w w') : Moored root w' := by
  induction hrun with
  | refl => exact h
  | tail _ hstep ih => exact Step.moored ih hstep

/-- Every run goes on from the checkpoint that there was. -/
lemma Named.since (h : Moored root w) (hsince : Since root names first w)
    (hrun : Named root names w w') : Since root names first w' := by
  induction hrun with
  | refl => exact hsince
  | tail hbefore hstep ih => exact Step.since (Named.moored h hbefore) ih hstep

omit [LawfulEqOrd Ref] [DecidableEq Ref] in
lemma Step.mono (hnames : names ⊆ names') (hstep : Step root names w w') :
    Step root names' w w' := by
  cases hstep with
  | grow hgrows hstays => exact .grow hgrows hstays
  | refresh damage outcome hhonest hindex hrefresh =>
    exact .refresh damage outcome hhonest hindex hrefresh
  | rebuild nanos process counter damage outcome hname hhonest hindex hrebuild =>
    exact .rebuild nanos process counter damage outcome (hnames hname) hhonest hindex hrebuild
  | close => exact .close
  | openIndex nanos process counter around again hnone hd hd' hhonest hhonest' hopen =>
    exact .openIndex nanos process counter around again hnone hd hd' hhonest hhonest' hopen

omit [LawfulEqOrd Ref] [DecidableEq Ref] in
lemma Named.mono (hnames : names ⊆ names') (hrun : Named root names w w') :
    Named root names' w w' := by
  induction hrun with
  | refl => exact .refl
  | tail _ hstep ih => exact ih.tail (Step.mono hnames hstep)

end Setting
end EditChain.Index
