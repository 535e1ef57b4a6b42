import EditChain.Sync.ConsentTheorems

/-!
# Handling a change of scope

The request to change the scope first opens the workspace, as if for all of its history, and then
selects. A workspace that has a scope loses nothing by that; one that was never configured is shared
as a whole from the first of these steps to the second.
-/

namespace EditChain.Sync

open Core Fallible Store
open Std (ExtTreeMap ExtTreeSet)

variable {Op : Type} [Schema Op] [Blake3] [Checksum] [ScopeJson]

namespace Replica

/-- `Worker::handle` of a `SetScope` request. -/
def handleSetScope (space : String) (backfill : Bool) : Fallible IoError Root SharingScope :=
  of fun root =>
    match (openSpace space true).exec root with
    | (.error error, root) => (.error error, root)
    | (.ok replica, root) =>
      let run := (setSharingScope backfill).exec ⟨root, replica⟩
      (run.1, run.2.root)

/-- A record that the state on disk permits to offer: the fence is that of the scope on file, and
the scope does not exclude the record. -/
def Offered (r : Root) (key : RecordKey) : Prop :=
  ∃ scope record, r.scope = some scope ∧ r.Matches scope.revision
    ∧ firstOf (history r.chain) key = some record ∧ scope.excludes key record.segment = false

variable {r r' : Root} {kind : Kind} {allowed : Kind → Prop}

omit [ScopeJson] in
/-- The records of a snapshot are those that may be offered. -/
lemma Frozen.offered_iff {snapshot : Snapshot} {w : Workspace} (h : Frozen false snapshot w)
    {key : RecordKey} : snapshot.contains key = true ↔ Offered w.root key := by
  rw [h.contains_iff]
  obtain ⟨scope, known, hforce, -⟩ := h.shared
  constructor
  · intro hexportable
    obtain ⟨scope', record, hscope, hfirst, hexcludes⟩ := hexportable
    have hsame : scope' = scope := Option.some.inj (hscope.symm.trans hforce.file)
    subst hsame
    exact ⟨scope', record, hscope, hforce.fence, hfirst, hexcludes⟩
  · intro hoffered
    obtain ⟨scope', record, hscope, -, hfirst, hexcludes⟩ := hoffered
    exact ⟨scope', record, hscope, hfirst, hexcludes⟩

omit [ScopeJson] in
/-- A call that writes nothing changes nothing on offer. -/
lemma Offered.idle {key : RecordKey} (h : Offered r key) (hpath : Path Idle r r') :
    Offered r' key := by
  obtain ⟨scope, record, hscope, hfence, hfirst, hexcludes⟩ := h
  obtain ⟨hscope', hrevision, -, hhistory⟩ := hpath.idle
  refine ⟨scope, record, hscope'.trans hscope, ?_, ?_, hexcludes⟩
  · unfold Root.Matches
    rw [hrevision]
    exact hfence
  · rw [hhistory]
    exact hfirst

/-! ## Steps -/

/-- The kinds of steps of such a request. -/
def Requesting (kind : Kind) : Prop := kind = .bind ∨ Selecting false kind

omit [ScopeJson] in
/-- No step of the request adds a record. -/
lemma Step.history_requesting (hkind : kind = .keep ∨ Requesting kind) (hstep : Step kind r r') :
    history r'.chain = history r.chain := by
  rcases hkind with rfl | rfl | rfl | rfl
  · cases hstep with
    | script => rfl
    | chain hwrote => exact hwrote.history_eq
  · cases hstep with
    | bind => rfl
  · cases hstep with
    | fence => rfl
  · cases hstep with
    | select => rfl

omit [ScopeJson] in
lemma Path.history_requesting (hpath : Path Requesting r r') :
    history r'.chain = history r.chain := by
  induction hpath with
  | refl => rfl
  | tail _ hstep ih =>
    obtain ⟨kind, hkind, hstep⟩ := hstep
    rw [hstep.history_requesting hkind, ih]

omit [ScopeJson] in
/-- A step of the request on a workspace that has a scope: the fence closes it, and the selected
scope cuts off all that was written before. -/
lemma Step.offered_requesting (hsome : r.scope ≠ none) (hkind : kind = .keep ∨ Requesting kind)
    (hstep : Step kind r r') :
    r'.scope ≠ none ∧ ∀ key, Offered r' key → Offered r key := by
  have hhistory := hstep.history_requesting hkind
  rcases hkind with rfl | rfl | rfl | rfl
  · cases hstep with
    | script => exact ⟨hsome, fun _ h => h⟩
    | chain hwrote =>
      refine ⟨hsome, fun key hoffered => ?_⟩
      obtain ⟨scope, record, hscope, hfence, hfirst, hexcludes⟩ := hoffered
      rw [hhistory] at hfirst
      exact ⟨scope, record, hscope, hfence, hfirst, hexcludes⟩
  · cases hstep with
    | bind hnone _ => exact absurd hnone hsome
  · cases hstep with
    | @fence _ scope hscope =>
      refine ⟨hsome, fun key hoffered => ?_⟩
      obtain ⟨scope', record, hscope', hfence, -⟩ := hoffered
      have hsame : scope' = scope := Option.some.inj (hscope'.symm.trans hscope)
      subst hsame
      exact absurd hfence (World.not_matches rfl (by omega))
  · cases hstep with
    | @select _ scope selected _ segment hscope _ hselected hcutoff =>
      refine ⟨nofun, fun key hoffered => ?_⟩
      obtain ⟨scope', record, hscope', -, hfirst, hexcludes⟩ := hoffered
      obtain ⟨n, rfl, hcuts⟩ := hcutoff
      obtain ⟨now, rfl⟩ := hselected
      cases hscope'
      obtain ⟨o, ho, rfl⟩ := Option.map_eq_some_iff.mp hfirst
      have hbefore := hcuts.before o (List.mem_of_find?_eq_some ho)
      simp [Scope.excludes, Scope.beforeCutoff] at hexcludes
      omega

omit [ScopeJson] in
lemma Path.offered_requesting (hsome : r.scope ≠ none) (hpath : Path Requesting r r') :
    r'.scope ≠ none ∧ ∀ key, Offered r' key → Offered r key := by
  induction hpath with
  | refl => exact ⟨hsome, fun _ h => h⟩
  | tail _ hstep ih =>
    obtain ⟨kind, hkind, hstep⟩ := hstep
    obtain ⟨hsome', hback⟩ := hstep.offered_requesting ih.1 hkind
    exact ⟨hsome', fun key hkey => ih.2 key (hback key hkey)⟩

/-! ## The request -/

/-- Wherever the request stops, it has taken such steps. -/
lemma path_handleSetScope {shapes : List Shape} (hchain : Holds r.chain shapes)
    (hlock : r.chain.lock ≠ .held) (space : String) :
    Path Requesting r ((handleSetScope space false).exec r).2 := by
  have hopened := wp_openSpace hchain hlock space true
  unfold handleSetScope
  rw [exec_of]
  cases hexec : (openSpace space true).exec r with
  | mk result root =>
    cases result with
    | error error =>
      have hrun := wp_eq_error hopened hexec
      exact hrun.1.mono fun _ => .inl
    | ok replica =>
      obtain ⟨hbound, hsound, -⟩ := wp_eq_ok hopened hexec
      have hselecting : Path (Selecting false) root
          ((setSharingScope false).exec ⟨root, replica⟩).2.root := by
        have hset := wp_setSharingScope hsound false
        cases hrun : (setSharingScope false).exec ⟨root, replica⟩ with
        | mk result w =>
          cases result with
          | error error => exact (wp_eq_error hset hrun).path
          | ok summary => exact (wp_eq_ok hset hrun).1
      exact (hbound.mono fun _ => .inl).trans (hselecting.mono fun _ => .inr)

/-- The scope that opens all history of a workspace which has none. -/
def firstScope (space : String) : Scope := { space := space }

/-- The request publishes consent for history that was never shared: the workspace has records and
no scope, and nothing refuses to write the first one. -/
structure PublishesPast (r : Root) (space : String) : Prop where
  unconfigured : r.scope = none
  records : logKeys r.chain ≠ []
  valid : validateSpace space = .ok ()
  fits : ScopeJson.length (firstScope space) ≤ Scope.limit
  opens : ∃ io store chain, SegmentStore.openInner false defaultSegmentBytes io r.chain
    = (.ok store, chain)

/-- Binding a workspace that has no scope writes the first one. -/
lemma exec_bindSpace {w : Workspace} (hnone : w.root.scope = none) (hwrites : w.root.io.writes = [])
    (hfits : ScopeJson.length (firstScope w.replica.space) ≤ Scope.limit) :
    (bindSpace true).exec w = (.ok (), { w with root :=
      { w.root with scope := some (firstScope w.replica.space) } }) := by
  unfold bindSpace
  rw [exec_bind_of_ok (exec_get w)]
  simp only [hnone, if_true]
  unfold onRoot Root.saveScope
  rw [exec_zoom, exec_guard, if_neg (by unfold firstScope at hfits; omega)]
  unfold Root.atomicWrite Root.publish Root.pop
  simp only [exec_bind, exec_get, exec_set, exec_pure, exec_modify, hwrites, List.headD_nil,
    List.tail_nil]
  rw [← hwrites]
  rfl

/-- The workspace after the script said how the next writer is opened. -/
def opening (w : Workspace) (rest : List SegmentStore.OpenIo) (chain : Directory) : Workspace :=
  withChain chain { w with root := { w.root with io := { w.root.io with opens := rest } } }

omit [Schema Op] [Blake3] [ScopeJson] in
lemma exec_locked_of_ok {α : Type} {body : Fallible IoError (Workspace × SegmentStore) α}
    {w : Workspace} {io : SegmentStore.OpenIo} {rest : List SegmentStore.OpenIo}
    {store : SegmentStore} {chain : Directory} (hopens : w.root.io.opens = io :: rest)
    (hopen : SegmentStore.openInner false defaultSegmentBytes io w.root.chain
      = (.ok store, chain)) :
    (locked body).exec w = ((body.exec (opening w rest chain, store)).1,
      closed (body.exec (opening w rest chain, store)).2) := by
  unfold locked onRoot Root.pop
  simp only [exec_bind, exec_zoom, exec_get, exec_set, exec_pure, exec_of, hopens, List.headD_cons,
    List.tail_cons, hopen]
  rfl

omit [Schema Op] [Blake3] [ScopeJson] in
lemma exec_locked_of_error {α : Type} {body : Fallible IoError (Workspace × SegmentStore) α}
    {w : Workspace} {io : SegmentStore.OpenIo} {rest : List SegmentStore.OpenIo}
    {error : IoError} {chain : Directory} (hopens : w.root.io.opens = io :: rest)
    (hopen : SegmentStore.openInner false defaultSegmentBytes io w.root.chain
      = (.error error, chain)) :
    (locked body).exec w = (.error error, opening w rest chain) := by
  unfold locked onRoot Root.pop
  simp only [exec_bind, exec_zoom, exec_get, exec_set, exec_pure, exec_of, hopens, List.headD_cons,
    List.tail_cons, hopen]
  rfl

/-- A writer whose directory cannot be created is refused, and nothing changes. -/
def refused : SegmentStore.OpenIo := { createDir := some Directory.notFound }

omit [Schema Op] [Blake3] [ScopeJson] in
lemma openInner_refused (chain : Directory) :
    ∃ error, SegmentStore.openInner false defaultSegmentBytes refused chain
      = (.error error, chain) := by
  unfold SegmentStore.openInner
  split
  · exact ⟨_, rfl⟩
  · exact ⟨_, rfl⟩

/-- A request that publishes the past can stop right after it: the writer is opened once, and then
it is refused. -/
lemma PublishesPast.offers {space : String} (h : PublishesPast r space)
    (hfence : r.revision = none) {io : SegmentStore.OpenIo} {store : SegmentStore}
    {chain : Directory} (hopen : SegmentStore.openInner false defaultSegmentBytes io r.chain
      = (.ok store, chain)) {key : RecordKey} (hkey : key ∈ logKeys r.chain) :
    Offered ((handleSetScope space false).exec { r with io := { opens := [io, refused] } }).2
      key := by
  let start : Workspace := ⟨{ r with io := { opens := [io, refused] } }, ⟨space, .new rootPath, 0⟩⟩
  let opened : Workspace := opening start [refused] chain
  let bound : Workspace :=
    { opened with root := { opened.root with scope := some (firstScope space) } }
  have hhistory : history { chain with lock := .free } = history r.chain := by
    have hkept := SegmentStore.openInner_segments false defaultSegmentBytes io r.chain
    rw [hopen] at hkept
    exact (wrote_of_segments (by exact hkept)).history_eq
  -- The first scope is written, and the writer of the selection is refused.
  have hopened : (openSpace space true).exec start.root
      = (.ok start.replica, (closed (bound, store)).root) := by
    unfold openSpace
    rw [exec_of, h.valid]
    simp only
    rw [exec_locked_of_ok (w := start) rfl hopen]
    unfold inside
    rw [exec_zoom, exec_bindSpace (w := opened) h.unconfigured rfl h.fits]
    rfl
  obtain ⟨error, hrefused⟩ := openInner_refused (closed (bound, store)).root.chain
  have hset : (setSharingScope false).exec ⟨(closed (bound, store)).root, start.replica⟩
      = (.error error, opening (closed (bound, store)) [] (closed (bound, store)).root.chain) := by
    unfold setSharingScope
    exact exec_bind_of_error (exec_locked_of_error rfl hrefused)
  obtain ⟨record, hrecord⟩ := Option.isSome_iff_exists.mp (mem_logKeys.mp hkey)
  unfold handleSetScope
  rw [exec_of, hopened]
  simp only
  rw [hset]
  refine ⟨firstScope space, record, rfl, .inr ⟨hfence, rfl⟩, ?_, ?_⟩
  · show firstOf (history { chain with lock := .free }) key = some record
    rw [hhistory]
    exact hrecord
  · simp [Scope.excludes, Scope.beforeCutoff, firstScope]

/-- A first scope that is too long is not written. -/
lemma wp_bindSpace_of_long {w : Workspace} (hnone : w.root.scope = none)
    (hlong : Scope.limit < ScopeJson.length (firstScope w.replica.space)) :
    wp (bindSpace true) (fun _ _ => False) (fun _ w' => w'.root.scope = none) w := by
  unfold bindSpace
  rw [wp_bind, wp_get]
  simp only [hnone, if_true]
  unfold onRoot Root.saveScope
  rw [wp_zoom, wp_guard]
  exact ⟨fun _ => hnone, fun hshort => absurd hlong hshort⟩

/-- Where the first scope is too long or no writer can be opened, binding fails. -/
lemma wp_locked_of_refused {w : Workspace} (hnone : w.root.scope = none)
    (hrefused : Scope.limit < ScopeJson.length (firstScope w.replica.space)
      ∨ ∀ io store chain, SegmentStore.openInner false defaultSegmentBytes io w.root.chain
        ≠ (.ok store, chain)) :
    wp (locked (inside (bindSpace true))) (fun _ _ => False) (fun _ w' => w'.root.scope = none)
      w := by
  unfold locked
  rw [wp_bind]
  apply wp_mono (wp_pop_calm Io.opens _ {})
  swap
  · exact fun _ _ hfalse => hfalse.elim
  intro io w₁ hcalm
  have hnone₁ : w₁.root.scope = none := hcalm.scope.trans hnone
  unfold wp
  rw [exec_of]
  cases hrun : SegmentStore.openInner false defaultSegmentBytes io w₁.root.chain with
  | mk result chain =>
    cases result with
    | error error => exact hnone₁
    | ok store =>
      have hlong : Scope.limit < ScopeJson.length (firstScope w₁.replica.space) := by
        rw [hcalm.space]
        rcases hrefused with hlong | hclosed
        · exact hlong
        · rw [hcalm.chain] at hrun
          exact absurd hrun (hclosed io store chain)
      have hbind : wp (bindSpace true) (fun _ _ => False) (fun _ w' => w'.root.scope = none)
          (withChain chain w₁) := wp_bindSpace_of_long hnone₁ hlong
      have hinside : wp (inside (bindSpace true)) (fun _ _ => False)
          (fun _ t => t.1.root.scope = none) (withChain chain w₁, store) := by
        unfold inside
        rw [wp_zoom]
        exact hbind
      simp only
      cases hexec : (inside (bindSpace true)).exec (withChain chain w₁, store) with
      | mk result t =>
        cases result with
        | error error =>
          have ht := wp_eq_error hinside hexec
          exact ht
        | ok u =>
          have ht := wp_eq_ok hinside hexec
          exact ht

/-- Where the first scope is refused, there is none afterwards. -/
lemma unconfigured_of_refused {space : String} (hnone : r.scope = none)
    (hrefused : validateSpace space ≠ .ok () ∨ Scope.limit < ScopeJson.length (firstScope space)
      ∨ ∀ io store chain, SegmentStore.openInner false defaultSegmentBytes io r.chain
        ≠ (.ok store, chain)) :
    ((handleSetScope space false).exec r).2.scope = none := by
  have hopen : wp (openSpace space true) (fun _ _ => False) (fun _ r' => r'.scope = none) r := by
    unfold openSpace wp
    rw [exec_of]
    cases hvalid : validateSpace space with
    | error error => exact hnone
    | ok =>
      have hlocked := wp_locked_of_refused (w := ⟨r, ⟨space, .new rootPath, 0⟩⟩) hnone
        (hrefused.resolve_left fun hinvalid => hinvalid hvalid)
      simp only
      cases hexec : (locked (inside (bindSpace true))).exec ⟨r, ⟨space, .new rootPath, 0⟩⟩ with
      | mk result w =>
        cases result with
        | error error =>
          have hw := wp_eq_error hlocked hexec
          exact hw
        | ok u =>
          have hw := wp_eq_ok hlocked hexec
          exact hw
  unfold handleSetScope
  rw [exec_of]
  cases hexec : (openSpace space true).exec r with
  | mk result root =>
    cases result with
    | error error =>
      have hroot := wp_eq_error hopen hexec
      exact hroot
    | ok replica => exact (wp_eq_ok hopen hexec).elim

end Replica

namespace World

open Replica

/-- Choosing to share only from now on publishes consent for the past exactly where the workspace
was never configured. For every history of a device and every space, no stop of the request leaves a
record on offer that was not on offer before, if and only if the workspace has a scope, or none of
its records can be read, or the first scope is refused before it is written. -/
theorem set_scope_hides_past_iff [ContentSchema Op] (happenings : List Happening) (space : String) :
    (∀ io key, Offered ((handleSetScope space false).exec
        { (run happenings).root with io := io }).2 key → Offered (run happenings).root key)
      ↔ ¬ PublishesPast (run happenings).root space := by
  have hsane := sane_run happenings
  obtain ⟨shapes, hchain⟩ := hsane.holds
  have hlock := hsane.unlocked
  have hfence := hsane.consistent.fenced.1
  generalize (run happenings).root = r at *
  constructor
  · intro hhides hpublishes
    have hnone := hpublishes.unconfigured
    obtain ⟨io, store, chain, hopen⟩ := hpublishes.opens
    obtain ⟨key, hkey⟩ := List.exists_mem_of_ne_nil _ hpublishes.records
    obtain ⟨scope, record, hscope, -⟩ :=
      hhides _ key (hpublishes.offers (hfence hnone) hopen hkey)
    rw [hnone] at hscope
    cases hscope
  · intro hnot io key hoffered
    let start : Root := { r with io := io }
    have hpath : Path Requesting start ((handleSetScope space false).exec start).2 :=
      path_handleSetScope (r := start) hchain hlock space
    cases hscope : r.scope with
    | some scope =>
      have hsome : start.scope ≠ none := by
        show r.scope ≠ none
        rw [hscope]
        nofun
      exact (hpath.offered_requesting hsome).2 key hoffered
    | none =>
      exfalso
      obtain ⟨final, record, hfinal, -, hfirst, -⟩ := hoffered
      -- The log keeps its records, so there is one; what refuses the first scope is left.
      have hrecords : logKeys r.chain ≠ [] := by
        intro hempty
        rw [hpath.history_requesting] at hfirst
        have hmem : key ∈ logKeys r.chain := mem_logKeys.mpr (by
          rw [show firstOf (history r.chain) key = some record from hfirst]
          rfl)
        rw [hempty] at hmem
        cases hmem
      have hrefused : validateSpace space ≠ .ok ()
          ∨ Scope.limit < ScopeJson.length (firstScope space)
          ∨ ∀ io store chain, SegmentStore.openInner false defaultSegmentBytes io r.chain
            ≠ (.ok store, chain) := by
        by_contra hopen
        rw [not_or, not_or, not_not, not_lt] at hopen
        obtain ⟨hvalid, hfits, hopens⟩ := hopen
        refine hnot ⟨hscope, hrecords, hvalid, hfits, ?_⟩
        by_contra hclosed
        exact hopens fun io store chain hrun => hclosed ⟨io, store, chain, hrun⟩
      have hunconfigured := unconfigured_of_refused (r := start) hscope hrefused
      rw [hfinal] at hunconfigured
      cases hunconfigured

end World
end EditChain.Sync

/-! ## A message that was never shared -/

namespace EditChain.Sync

open Core Fallible Store

section Messages

local instance requestSchema : Schema OpId := messageSchema
local instance requestDigests : Blake3 := messageDigests
local instance requestContent : ContentSchema OpId := messageContent
local instance requestChecksum : Checksum := crc32cChecksum
local instance requestJson : ScopeJson := ⟨fun _ => 0⟩

/-- The request, on a device that wrote one message and was never configured, when the file system
refuses the second writer. -/
def stoppedRequest : Root :=
  ((Replica.handleSetScope "space" false).exec
    { (World.run [messageCapture messageV1]).root with io := { opens := [{}, Replica.refused] } }).2

/-- The message is on offer after a request to share only from now on, and was not before: every
snapshot for a peer shows it. -/
theorem World.set_scope_publishes_message :
    ∃ key, ¬ Replica.Offered (World.run [messageCapture messageV1]).root key
      ∧ Replica.Offered stoppedRequest key
      ∧ ∀ replica snapshot workspace, Replica.Sound ⟨stoppedRequest, replica⟩ →
        (Replica.snapshotFor false).exec ⟨stoppedRequest, replica⟩ = (.ok snapshot, workspace) →
        snapshot.contains key = true := by
  have hopen : (SegmentStore.openInner false defaultSegmentBytes {}
      (World.run [messageCapture messageV1]).root.chain).1.isOk = true := by
    decide +kernel
  have hrecords : logKeys (World.run [messageCapture messageV1]).root.chain ≠ [] := by
    decide +kernel
  cases hrun : SegmentStore.openInner false defaultSegmentBytes {}
      (World.run [messageCapture messageV1]).root.chain with
  | mk result chain =>
    rw [hrun] at hopen
    cases result with
    | error error => cases hopen
    | ok store =>
      have hpublishes : Replica.PublishesPast (World.run [messageCapture messageV1]).root "space" :=
        ⟨rfl, hrecords, by decide +kernel, Nat.zero_le _, {}, store, chain, hrun⟩
      obtain ⟨key, hkey⟩ := List.exists_mem_of_ne_nil _ hrecords
      have hoffered : Replica.Offered stoppedRequest key := hpublishes.offers rfl hrun hkey
      refine ⟨key, ?_, hoffered, ?_⟩
      · rintro ⟨scope, record, hscope, -⟩
        cases hscope
      · intro replica snapshot workspace hsound hsnapshot
        obtain ⟨hrests, hfrozen⟩ :=
          wp_eq_ok (Replica.wp_snapshotFor hsound false) hsnapshot
        exact hfrozen.offered_iff.mpr (hoffered.idle hrests.path)

end Messages
end EditChain.Sync
