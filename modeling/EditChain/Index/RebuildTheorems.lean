import EditChain.Index.MirrorTheorems

/-!
# The incremental index and a rebuild

In every run of an index over a chain that only grows, and over content that stays available once it
is, the state after a successful refresh matches a state that is built anew.
-/

namespace EditChain.Index

open Core Fallible Store
open Std (ExtTreeMap ExtTreeSet TransOrd LawfulEqOrd)

variable {Op Ref Key : Type} [Schema Op] [Checksum] [IndexSchema Op Ref Key] [DecidableEq Key]
  [Ord Ref] [TransOrd Ref] [LawfulEqOrd Ref] [DecidableEq Ref]

/-! ## States of one chain -/

namespace ContentIndex

variable {index index' : ContentIndex Ref} {truth : Ref → ContentState}

omit [Checksum] [DecidableEq Ref] in
/-- Two indexes with the same owners and the present availability are the same. -/
lemma matches_of_current
    (howns : ∀ reference id, index.Owns reference id ↔ index'.Owns reference id)
    (howned : index.Owned) (howned' : index'.Owned) (hlasts : index.Lasts truth)
    (hlasts' : index'.Lasts truth) (hcurrent : index.Current truth)
    (hcurrent' : index'.Current truth) : index.Matches index' := by
  have hentries : index.entries = index'.entries := by
    apply ExtTreeMap.ext_getElem?
    intro reference
    cases hentry : index.entries[reference]? with
    | none =>
      cases hentry' : index'.entries[reference]? with
      | none => rfl
      | some entry' =>
        obtain ⟨owner, howner⟩ := howned' reference entry' hentry'
        obtain ⟨entry, hsome, -⟩ := (howns reference owner).mpr ⟨entry', hentry', howner⟩
        rw [hentry] at hsome
        cases hsome
    | some entry =>
      obtain ⟨owner, howner⟩ := howned reference entry hentry
      obtain ⟨entry', hentry', -⟩ := (howns reference owner).mp ⟨entry, hentry, howner⟩
      rw [hentry']
      have hstate : entry.state = truth reference := by
        apply hcurrent
        unfold status
        rw [hentry]
        rfl
      have hstate' : entry'.state = truth reference := by
        apply hcurrent'
        unfold status
        rw [hentry']
        rfl
      have howners : entry.owners = entry'.owners := by
        apply ExtTreeSet.ext_mem
        intro id
        have hboth := howns reference id
        unfold Owns at hboth
        rw [hentry, hentry'] at hboth
        simpa using hboth
      obtain ⟨state, owners⟩ := entry
      obtain ⟨state', owners'⟩ := entry'
      dsimp only at hstate hstate' howners
      rw [hstate, hstate', howners]
  refine ⟨hentries, ?_⟩
  apply ExtTreeSet.ext_mem
  intro reference
  rw [hlasts.pending, hlasts'.pending]
  unfold status
  rw [hentries]

end ContentIndex

namespace State

variable {d : Directory} {state state' expected : State Op Ref Key} {truth : Ref → ContentState}
  {answers answers' : Answers Ref}

omit [DecidableEq Ref] in
/-- Two states of the same chain match. -/
lemma Mirrors.matches (h : state.Mirrors d truth) (h' : expected.Mirrors d truth)
    (hcurrent : state.content.Current truth) (hcurrent' : expected.content.Current truth)
    (hchain : state.tail.chain = expected.tail.chain) : state.Matches expected where
  items := by
    apply ExtTreeSet.ext_mem
    intro item
    rw [h.remembers.items, h'.remembers.items, hchain]
  aliases := by
    apply h.remembers.aliases_eq
    rw [hchain]
    exact h'.remembers
  identities := by
    apply ExtTreeSet.ext_mem
    intro id
    rw [h.identities, h'.identities, hchain]
  records := by
    apply ExtTreeMap.ext_getElem?
    intro id
    rw [h.follows.derived.records, h'.follows.derived.records, hchain]
  postings := by
    apply h.posts.filled.eq_of_owners h'.posts.filled
    intro key id
    rw [h.posts.mem, h'.posts.mem, hchain]
  content := by
    apply ContentIndex.matches_of_current _ h.follows.derived.owned h'.follows.derived.owned h.lasts
      h'.lasts hcurrent hcurrent'
    intro reference id
    rw [h.follows.derived.owns, h'.follows.derived.owns, hchain]
  admission := by
    unfold AdmissionMatches
    rw [hchain]
    exact ⟨rfl, rfl, fun _ _ => ⟨rfl, rfl⟩⟩

/-- The state has read all of its directory, and knows the present availability of content. -/
structure Fresh (d : Directory) (truth : Ref → ContentState) (state : State Op Ref Key) : Prop where
  mirrors : state.Mirrors d truth
  current : state.content.Current truth
  finished : ∀ k, (∀ n : ℕ, d.segments[n]?.isSome ↔ n < k) → Tail.Finished d k state.tail

/-- A fresh state matches what is built anew. -/
lemma Fresh.matches_build (h : state.Fresh d truth) {root name : String} (hname : name ≠ "")
    (hhonest : Honest truth answers)
    (hbuild : (build answering root d name).exec answers = (.ok expected, answers')) :
    state.Matches expected := by
  obtain ⟨hmirrors, hcurrent, k, hdense, hfinished⟩ := build_mirrors hname hhonest hbuild
  exact h.mirrors.matches hmirrors h.current hcurrent ((h.finished k hdense).chain_eq hfinished)

/-- What is built is fresh. -/
lemma build_fresh {root name : String} (hname : name ≠ "") (hhonest : Honest truth answers)
    (hbuild : (build answering root d name).exec answers = (.ok state, answers')) :
    state.Fresh d truth := by
  obtain ⟨hmirrors, hcurrent, k, hdense, hfinished⟩ := build_mirrors hname hhonest hbuild
  refine ⟨hmirrors, hcurrent, fun k' hdense' => ?_⟩
  have hsame : k' = k := by
    by_contra hne
    rcases Nat.lt_or_gt_of_ne hne with hlt | hgt
    · exact absurd ((hdense' k').mp ((hdense k').mpr hlt)) (lt_irrefl _)
    · exact absurd ((hdense k).mp ((hdense' k).mpr hgt)) (lt_irrefl _)
  rw [hsame]
  exact hfinished

/-- A refresh that has nothing to publish finds a state that is fresh already. -/
lemma Mirrors.fresh_of_idle {delta : IndexDelta} (h : state.Mirrors d truth)
    (hhonest : Honest truth answers)
    (hexec : (state.advance answering d).exec answers = (.ok (state', delta), answers'))
    (hzero : delta.work.records.bytesRead = 0) (hnone : delta.contentChanged = ∅) :
    state.Fresh d truth := by
  obtain ⟨hmirrors, hcurrent, hfinished, hchain⟩ := h.advance hhonest hexec
  have hsame := hchain hzero
  obtain ⟨-, hreports, -, -⟩ := h.follows.advance hexec
  refine ⟨h, fun reference status hstatus => ?_, fun k hdense => ?_⟩
  · -- the reference has an owner, whose content did not change
    have hsome : ∃ entry, state.content.entries[reference]? = some entry := by
      unfold ContentIndex.status at hstatus
      obtain ⟨entry, hentry, -⟩ := Option.map_eq_some_iff.mp hstatus
      exact ⟨entry, hentry⟩
    obtain ⟨entry, hentry⟩ := hsome
    obtain ⟨owner, howner⟩ := h.follows.derived.owned reference entry hentry
    obtain ⟨location, op, haccepted, hmem⟩ :=
      (h.follows.derived.owns reference owner).mp ⟨entry, hentry, howner⟩
    have haccepted' : acceptedBy state'.tail.chain owner = some (location, op) := by
      rw [hsame]
      exact haccepted
    have hin : owner ∈ state.accepted := by
      rw [h.follows.derived.mem_accepted, haccepted]
      rfl
    have hin' : owner ∈ state'.accepted := by
      rw [hmirrors.follows.derived.mem_accepted, haccepted']
      rfl
    have hcontent : state.contentOf owner = state'.contentOf owner := by
      by_contra hne
      have hchanged := (hreports.content owner).mpr ⟨hin, hin', hne⟩
      rw [hnone] at hchanged
      exact ExtTreeSet.not_mem_empty hchanged
    have hkept := (contentOf_eq_iff h.follows.derived hmirrors.follows.derived haccepted
      haccepted').mp hcontent reference hmem
    apply hcurrent
    rw [hkept]
    exact hstatus
  · obtain ⟨after, hreads, hafter⟩ := hfinished k hdense
    exact ⟨after, hreads, hsame ▸ hafter⟩

end State

/-! ## Calls -/

namespace ChainIndex

variable {d : Directory} {truth : Ref → ContentState} {around again : Surroundings (Answers Ref)}
  {saved saved' : Option (State Op Ref Key)} {index : ChainIndex Op Ref Key}
  {session : Session Op Ref Key}

/-- A refresh keeps the handle and the checkpoint; one that succeeds leaves a fresh state. -/
lemma refresh_mirrors {result : Except IoError IndexDelta} (hd : around.directory = d)
    (hhonest : Honest truth around.blobs) (hindex : index.state.Mirrors d truth)
    (hsaved : ∀ state, saved = some state → state.Mirrors d truth)
    (h : (refresh answering around).exec ⟨saved, index⟩ = (result, session)) :
    session.index.state.Mirrors d truth
      ∧ (∀ state, session.saved = some state → state.Mirrors d truth)
      ∧ ∀ delta, result = .ok delta → session.index.state.Fresh d truth := by
  subst hd
  rcases refresh_cases h with ⟨hkept, hstate, hidle⟩ | ⟨next, delta, s', hadvance, hnext, hcases⟩
  · rw [hstate, hkept]
    refine ⟨hindex, hsaved, fun delta hok => ?_⟩
    obtain ⟨next, s', hadvance, hzero, hnone⟩ := hidle delta hok
    exact hindex.fresh_of_idle hhonest hadvance hzero hnone
  · obtain ⟨hmirrors, hcurrent, hfinished, -⟩ := hindex.advance hhonest hadvance
    have hcheckpoint : ∀ state, session.saved = some state →
        state.Mirrors around.directory truth := by
      intro state hsome
      rw [hnext] at hsome
      cases hsome
      exact hmirrors
    rcases hcases with ⟨hstate, error, hresult⟩ | ⟨hstate, hresult⟩
    · rw [hstate]
      refine ⟨hindex, hcheckpoint, fun found hok => ?_⟩
      rw [hresult] at hok
      cases hok
    · rw [hstate]
      exact ⟨hmirrors, hcheckpoint, fun _ _ => ⟨hmirrors, hcurrent, hfinished⟩⟩

/-- Opening keeps the checkpoint; the handle that it gives is fresh. -/
lemma openIndex_mirrors {root name : String} {result : Except IoError (ChainIndex Op Ref Key)}
    (hd : around.directory = d) (hd' : again.directory = d) (hname : name ≠ "")
    (hhonest : Honest truth around.blobs) (hhonest' : Honest truth again.blobs)
    (hsaved : ∀ state, saved = some state → state.Mirrors d truth)
    (h : (openIndex answering root name around again).exec saved = (result, saved')) :
    (∀ state, saved' = some state → state.Mirrors d truth)
      ∧ ∀ index, result = .ok index → index.state.Fresh d truth := by
  unfold openIndex at h
  rw [exec_bind] at h
  generalize hrestore : (restore answering root name around).exec saved = restored at h
  obtain ⟨restored, middle⟩ := restored
  obtain ⟨hhandle, hcheckpoint⟩ :=
    restore_cases hd (fun state hstate => (hsaved state hstate).follows) hrestore
  have hmiddle : ∀ state, middle = some state → state.Mirrors d truth := by
    intro state hstate
    rcases hcheckpoint with hsame | ⟨-, found, s', hfound, hbuild⟩
    · exact hsaved state (hsame ▸ hstate)
    · rw [hfound] at hstate
      cases hstate
      exact (State.build_mirrors hname hhonest hbuild).1
  cases restored with
  | error error =>
    cases h
    exact ⟨hmiddle, nofun⟩
  | ok state =>
    have hstate := hhandle state rfl
    dsimp only at h
    rw [exec_bind_of_ok (exec_get _), exec_of] at h
    generalize hrefresh : (refresh answering again).exec ⟨middle, ⟨state, false⟩⟩ = refreshed at h
    obtain ⟨refreshed, session⟩ := refreshed
    obtain ⟨-, hall, hfresh⟩ :=
      refresh_mirrors hd' hhonest' (hmiddle state hstate) hmiddle hrefresh
    cases refreshed with
    | error error =>
      cases h
      exact ⟨hall, nofun⟩
    | ok delta =>
      cases h
      refine ⟨hall, fun index hindex => ?_⟩
      cases hindex
      exact hfresh delta rfl

omit [LawfulEqOrd Ref] [DecidableEq Ref] in
/-- How a rebuild ends: it changes nothing that can be seen, it fails after the checkpoint was
replaced, or it succeeds. -/
lemma rebuild_cases {σ : Type} {source : Ref → Fallible IoError σ ContentState}
    {around : Surroundings σ} {root name : String} {result : Except IoError ChainReadStats}
    (h : (rebuild source root name around).exec ⟨saved, index⟩ = (result, session)) :
    (session.saved = saved ∧ session.index.state = index.state ∧ ∃ error, result = .error error)
      ∨ ∃ rebuilt s',
        (State.build source root around.directory name).exec around.blobs = (.ok rebuilt, s')
          ∧ session.saved = some rebuilt
          ∧ ((session.index.state = index.state ∧ ∃ error, result = .error error)
            ∨ (session.index.state = rebuilt ∧ result = .ok rebuilt.tail.chain.stats)) := by
  unfold rebuild at h
  rw [exec_bind_of_ok (exec_get _)] at h
  dsimp only at h
  rw [exec_bind, exec_lift] at h
  generalize index.checkWritable = writable at h
  cases writable with
  | error error =>
    cases h
    exact .inl ⟨rfl, rfl, error, rfl⟩
  | ok _ =>
    dsimp only at h
    rw [exec_bind, exec_lift] at h
    generalize around.damage.elim (.ok ()) Except.error = damage at h
    cases damage with
    | error error =>
      cases h
      exact .inl ⟨rfl, rfl, error, rfl⟩
    | ok _ =>
      dsimp only at h
      rw [exec_bind, exec_lift] at h
      generalize hbuild :
        (State.build source root around.directory name).exec around.blobs = built at h
      obtain ⟨built, s'⟩ := built
      cases built with
      | error error =>
        cases h
        exact .inl ⟨rfl, rfl, error, rfl⟩
      | ok rebuilt =>
        dsimp only at h
        rw [exec_bind, exec_publish] at h
        generalize around.outcome = outcome at h
        cases outcome with
        | done =>
          cases h
          exact .inr ⟨rebuilt, s', rfl, rfl, .inr ⟨rfl, rfl⟩⟩
        | failed replaced error =>
          cases h
          cases replaced with
          | false => exact .inl ⟨rfl, rfl, error, rfl⟩
          | true => exact .inr ⟨rebuilt, s', rfl, rfl, .inl ⟨rfl, error, rfl⟩⟩

/-- A rebuild keeps the handle and the checkpoint; one that succeeds leaves a fresh state. -/
lemma rebuild_mirrors {root name : String} {result : Except IoError ChainReadStats}
    (hd : around.directory = d) (hname : name ≠ "") (hhonest : Honest truth around.blobs)
    (hindex : index.state.Mirrors d truth)
    (hsaved : ∀ state, saved = some state → state.Mirrors d truth)
    (h : (rebuild answering root name around).exec ⟨saved, index⟩ = (result, session)) :
    session.index.state.Mirrors d truth
      ∧ (∀ state, session.saved = some state → state.Mirrors d truth)
      ∧ ∀ stats, result = .ok stats → session.index.state.Fresh d truth := by
  subst hd
  rcases rebuild_cases h with
    ⟨hkept, hstate, error, hresult⟩ | ⟨rebuilt, s', hbuild, hnext, hcases⟩
  · rw [hstate, hkept]
    refine ⟨hindex, hsaved, fun stats hok => ?_⟩
    rw [hresult] at hok
    cases hok
  · have hfresh := State.build_fresh hname hhonest hbuild
    have hcheckpoint : ∀ state, session.saved = some state →
        state.Mirrors around.directory truth := by
      intro state hsome
      rw [hnext] at hsome
      cases hsome
      exact hfresh.mirrors
    rcases hcases with ⟨hstate, error, hresult⟩ | ⟨hstate, -⟩
    · rw [hstate]
      refine ⟨hindex, hcheckpoint, fun found hok => ?_⟩
      rw [hresult] at hok
      cases hok
    · rw [hstate]
      exact ⟨hfresh.mirrors, hcheckpoint, fun _ _ => hfresh⟩

end ChainIndex

/-! ## Runs -/

/-- A chain and its content, with the checkpoint of its index and the handle while there is one. -/
structure Setting (Op Ref Key : Type) [Ord Ref] where
  directory : Directory
  truth : Ref → ContentState
  saved : Option (State Op Ref Key) := none
  handle : Option (ChainIndex Op Ref Key) := none

namespace Setting

variable (root : String) (names : Set String)

/-- What can happen: the chain grows, while content that is available stays so; the handle is
refreshed, rebuilt under one of the given names, with any outcome, or dropped; or the index is
opened. Reading content may fail at any time, but what it gives is true. -/
inductive Step : Setting Op Ref Key → Setting Op Ref Key → Prop
  | grow {w : Setting Op Ref Key} {d : Directory} {truth : Ref → ContentState} :
      w.directory.Grows d →
      (∀ reference, w.truth reference = .available → truth reference = .available) →
      Step w { w with directory := d, truth := truth }
  | refresh {w : Setting Op Ref Key} {index : ChainIndex Op Ref Key}
      {session : Session Op Ref Key} {result : Except IoError IndexDelta} {answers : Answers Ref}
      (damage : Option IoError) (outcome : Publication) : Honest w.truth answers →
      w.handle = some index →
      (ChainIndex.refresh answering ⟨w.directory, answers, damage, outcome⟩).exec ⟨w.saved, index⟩
        = (result, session) →
      Step w { w with saved := session.saved, handle := some session.index }
  | rebuild {w : Setting Op Ref Key} {index : ChainIndex Op Ref Key}
      {session : Session Op Ref Key} {result : Except IoError ChainReadStats}
      {answers : Answers Ref} (nanos process counter : ℕ) (damage : Option IoError)
      (outcome : Publication) : generationName nanos process counter ∈ names →
      Honest w.truth answers → w.handle = some index →
      (ChainIndex.rebuild answering root (generationName nanos process counter)
        ⟨w.directory, answers, damage, outcome⟩).exec ⟨w.saved, index⟩ = (result, session) →
      Step w { w with saved := session.saved, handle := some session.index }
  | close {w : Setting Op Ref Key} : Step w { w with handle := none }
  | openIndex {w : Setting Op Ref Key} {saved : Option (State Op Ref Key)}
      {result : Except IoError (ChainIndex Op Ref Key)} (nanos process counter : ℕ)
      (around again : Surroundings (Answers Ref)) : w.handle = none →
      around.directory = w.directory → again.directory = w.directory →
      Honest w.truth around.blobs → Honest w.truth again.blobs →
      (ChainIndex.openIndex answering root (generationName nanos process counter) around
        again).exec w.saved = (result, saved) →
      Step w { w with saved := saved, handle := result.toOption }

/-- Any number of steps, whose rebuilds use the given names. -/
def Named : Setting Op Ref Key → Setting Op Ref Key → Prop := Relation.ReflTransGen (Step root names)

/-- Any number of steps. -/
def Run : Setting Op Ref Key → Setting Op Ref Key → Prop :=
  Relation.ReflTransGen (Step root Set.univ)

/-- The checkpoint and the handle mirror the chain. -/
structure Sound (w : Setting Op Ref Key) : Prop where
  saved : ∀ state, w.saved = some state → state.Mirrors w.directory w.truth
  handle : ∀ index, w.handle = some index → index.state.Mirrors w.directory w.truth

variable {root : String} {names : Set String} {w w' : Setting Op Ref Key}
  {index : ChainIndex Op Ref Key}

lemma Step.sound (h : Sound w) (hstep : Step root names w w') : Sound w' := by
  cases hstep with
  | grow hgrows hstays =>
    exact ⟨fun state hstate => (h.saved state hstate).grows hgrows hstays,
      fun index hindex => (h.handle index hindex).grows hgrows hstays⟩
  | refresh damage outcome hhonest hindex hrefresh =>
    obtain ⟨hmirrors, hsaved, -⟩ := ChainIndex.refresh_mirrors rfl hhonest (h.handle _ hindex)
      h.saved hrefresh
    refine ⟨hsaved, fun other hother => ?_⟩
    cases hother
    exact hmirrors
  | rebuild nanos process counter damage outcome hname hhonest hindex hrebuild =>
    obtain ⟨hmirrors, hsaved, -⟩ := ChainIndex.rebuild_mirrors rfl
      (generationName_ne nanos process counter) hhonest (h.handle _ hindex) h.saved hrebuild
    refine ⟨hsaved, fun other hother => ?_⟩
    cases hother
    exact hmirrors
  | close => exact ⟨h.saved, nofun⟩
  | openIndex nanos process counter around again hnone hd hd' hhonest hhonest' hopen =>
    obtain ⟨hsaved, hfresh⟩ := ChainIndex.openIndex_mirrors hd hd'
      (generationName_ne nanos process counter) hhonest hhonest' h.saved hopen
    refine ⟨hsaved, fun index hindex => (hfresh index ?_).mirrors⟩
    exact toOption_eq_some.mp hindex

/-- Every run keeps the index sound. -/
lemma Run.sound (h : Sound w) (hrun : Run root w w') : Sound w' := by
  induction hrun with
  | refl => exact h
  | tail _ hstep ih => exact Step.sound ih hstep

lemma Run.from_empty {d : Directory} {truth : Ref → ContentState}
    (hrun : Run root { directory := d, truth := truth } w) : Sound w :=
  Run.sound (⟨nofun, nofun⟩ : Sound { directory := d, truth := truth }) hrun

/-- Whatever happened before, the handle mirrors the chain. -/
lemma Run.mirrors {d : Directory} {truth : Ref → ContentState}
    (hrun : Run root { directory := d, truth := truth } w) (hindex : w.handle = some index) :
    index.state.Mirrors w.directory w.truth :=
  (Run.from_empty hrun).handle index hindex

/-- Whatever happened before, a refresh that succeeds leaves a state that matches one that is built
from the directory and the content as they then are. -/
theorem refreshed_matches_rebuilt {d : Directory} {truth : Ref → ContentState}
    (hrun : Run root { directory := d, truth := truth } w) (hindex : w.handle = some index)
    {answers : Answers Ref} (hhonest : Honest w.truth answers) {damage : Option IoError}
    {outcome : Publication} {delta : IndexDelta} {session : Session Op Ref Key}
    (hrefresh : (ChainIndex.refresh answering ⟨w.directory, answers, damage, outcome⟩).exec
      ⟨w.saved, index⟩ = (.ok delta, session))
    {present rest : Answers Ref} (hpresent : Honest w.truth present) {nanos process counter : ℕ}
    {expected : State Op Ref Key}
    (hbuild : (State.build answering root w.directory (generationName nanos process counter)).exec
      present = (.ok expected, rest)) : session.index.state.Matches expected := by
  have hsound := Run.from_empty hrun
  obtain ⟨-, -, hfresh⟩ := ChainIndex.refresh_mirrors rfl hhonest (hsound.handle index hindex)
    hsound.saved hrefresh
  exact (hfresh delta rfl).matches_build (generationName_ne nanos process counter) hpresent hbuild

omit [LawfulEqOrd Ref] [DecidableEq Ref] in
/-- An index that is opened for the first time is that of a run, with what can be seen of it. -/
lemma Run.opened {d : Directory} {truth : Ref → ContentState} {answers : Answers Ref}
    (hhonest : Honest truth answers) (nanos process counter : ℕ)
    {shows : ChainIndex Op Ref Key → Bool}
    {called : Except IoError (ChainIndex Op Ref Key) × Option (State Op Ref Key)}
    (hcalled : (ChainIndex.openIndex answering root (generationName nanos process counter)
      ⟨d, answers, none, .done⟩ ⟨d, answers, none, .done⟩).exec none = called)
    (h : called.1.toOption.any shows = true) :
    ∃ (w : Setting Op Ref Key) (index : ChainIndex Op Ref Key),
      Run root { directory := d, truth := truth } w ∧ w.handle = some index ∧ w.directory = d
        ∧ shows index = true := by
  obtain ⟨result, saved⟩ := called
  cases result with
  | error error => cases h
  | ok index =>
    have hstep : Step root Set.univ { directory := d, truth := truth }
        ⟨d, truth, saved, (Except.ok index).toOption⟩ :=
      .openIndex nanos process counter _ _ rfl rfl rfl hhonest hhonest hcalled
    exact ⟨_, index, Relation.ReflTransGen.single hstep, rfl, rfl, h⟩

end Setting
end EditChain.Index

namespace EditChain.Index.Setting

open Core Fallible Store

section Witness

local instance rebuiltSchema : Schema OpId := messageSchema
local instance rebuiltChecksum : Checksum := crc32cChecksum

/-- Messages that refer to one content, and are posted under it. -/
local instance rebuiltIndex : IndexSchema OpId ℕ ℕ where
  references _ := [0]
  keys _ references := references
  items op := [op]
  aliases _ := []

/-- The content has not arrived. -/
def unarrived : Answers ℕ := fun _ => .ok .missing

/-- The first message, before and after it arrives. -/
def messageAround (d : Directory) : Surroundings (Answers ℕ) := ⟨d, unarrived, none, .done⟩

/-- The index of an empty chain, as it is opened for the first time. -/
def emptyOpened : Except IoError (ChainIndex OpId ℕ ℕ) × Option (State OpId ℕ ℕ) :=
  (ChainIndex.openIndex answering "/chain" (generationName 1 2 3) (messageAround Directory.empty)
    (messageAround Directory.empty)).exec none

/-- After the first message arrived, the refreshed index matches one that is built. -/
theorem refreshed_matches_rebuilt_message :
    ∃ (w : Setting OpId ℕ ℕ) (index : ChainIndex OpId ℕ ℕ) (delta : IndexDelta)
      (session : Session OpId ℕ ℕ) (expected : State OpId ℕ ℕ) (rest : Answers ℕ),
      Run "/chain" { directory := Directory.empty, truth := fun _ => .missing } w
        ∧ w.handle = some index
        ∧ (ChainIndex.refresh answering (messageAround w.directory)).exec ⟨w.saved, index⟩
          = (.ok delta, session)
        ∧ (State.build answering "/chain" w.directory (generationName 4 5 6)).exec unarrived
          = (.ok expected, rest)
        ∧ delta.added.length = 1 ∧ session.index.state.Matches expected := by
  have hhonest : Honest (fun _ => ContentState.missing) unarrived := .of_eq fun _ => rfl
  have hopened : emptyOpened.1.toOption.isSome = true := rfl
  obtain ⟨index, hindex⟩ := Option.isSome_iff_exists.mp hopened
  have hrun : Run "/chain" { directory := Directory.empty, truth := fun _ => .missing }
      (⟨oneSegment messageFrame 2, fun _ => .missing, emptyOpened.2, emptyOpened.1.toOption⟩
        : Setting OpId ℕ ℕ) :=
    (Relation.ReflTransGen.single (.openIndex 1 2 3 (messageAround Directory.empty)
      (messageAround Directory.empty) rfl rfl rfl hhonest hhonest rfl)).tail
        (.grow (.of_empty _) fun _ h => h)
  have hrefresh : (emptyOpened.1.toOption.any fun index =>
      match ((ChainIndex.refresh answering (messageAround (oneSegment messageFrame 2))).exec
        ⟨emptyOpened.2, index⟩).1 with
      | .ok delta => decide (delta.added.length = 1)
      | .error _ => false) = true := by
    decide +kernel
  have hbuild : ((State.build answering "/chain" (oneSegment messageFrame 2)
      (generationName 4 5 6) : Fallible IoError (Answers ℕ) (State OpId ℕ ℕ)).exec
        unarrived).1.toOption.isSome = true := by
    decide +kernel
  generalize hbuilt : (State.build answering "/chain" (oneSegment messageFrame 2)
    (generationName 4 5 6) : Fallible IoError (Answers ℕ) (State OpId ℕ ℕ)).exec unarrived
      = built at hbuild
  rw [hindex, Option.any_some] at hrefresh
  generalize hrefreshed : (ChainIndex.refresh answering
    (messageAround (oneSegment messageFrame 2))).exec ⟨emptyOpened.2, index⟩ = refreshed
      at hrefresh
  obtain ⟨built, rest⟩ := built
  obtain ⟨refreshed, session⟩ := refreshed
  cases built with
  | error error => cases hbuild
  | ok expected =>
    cases refreshed with
    | error error => cases hrefresh
    | ok delta =>
      exact ⟨_, index, delta, session, expected, rest, hrun, hindex, hrefreshed, hbuilt,
        of_decide_eq_true hrefresh,
        refreshed_matches_rebuilt hrun hindex hhonest hrefreshed hhonest hbuilt⟩

end Witness
end EditChain.Index.Setting
