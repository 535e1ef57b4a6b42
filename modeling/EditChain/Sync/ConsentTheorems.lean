import EditChain.Sync.AdapterTheorems
import EditChain.Sync.WorldTheorems

/-!
# Sharing consent

What a device promises about sharing, over every run: provenance is never lost, a change of scope
fails closed at every step, and sharing from now on never leaks earlier history.
-/

namespace EditChain.Sync

open Core Fallible Store
open Std (ExtTreeMap ExtTreeSet)

variable {Op : Type} [Schema Op] [Blake3] [Checksum] [ScopeJson] [ContentSchema Op]

namespace Replica

variable {r r' : Root} {kind : Kind} {allowed : Kind → Prop}

/-! ## Provenance -/

/-- The key is on record as received. -/
def ReceivedKey (r : Root) (key : RecordKey) : Prop :=
  ∃ scope, r.scope = some scope ∧ key ∈ scope.received

/-- The key is on record as local. -/
def LocalKey (r : Root) (key : RecordKey) : Prop :=
  ∃ scope, r.scope = some scope ∧ key ∈ scope.locals

omit [ScopeJson] [ContentSchema Op] in
lemma Later.received (h : Later r r') {key : RecordKey} (hkey : ReceivedKey r key) :
    ReceivedKey r' key := by
  obtain ⟨scope, hscope, hin⟩ := hkey
  obtain ⟨scope', hscope', -, hreceived, -⟩ := h.scope scope hscope
  exact ⟨scope', hscope', hreceived key hin⟩

omit [ScopeJson] [ContentSchema Op] in
/-- A step that is not the device's own adds only received records to the log. -/
lemma Step.added (hstep : Step kind r r') (hown : kind ≠ .own) {key : RecordKey}
    (hkey : key ∈ logKeys r'.chain) : key ∈ logKeys r.chain ∨ ReceivedKey r' key := by
  cases hstep with
  | chain hwrote =>
    left
    unfold logKeys at hkey ⊢
    rwa [hwrote.history_eq] at hkey
  | append hwrote => exact absurd rfl hown
  | content bytes hfresh => exact absurd rfl hown
  | @receive _ scope d added hscope hfence hwrote hreceived =>
    obtain ⟨o, ho, rfl⟩ := List.mem_map.mp hkey
    rcases hreceived o ho with hold | hin
    · exact .inl (List.mem_map_of_mem hold)
    · exact .inr ⟨scope, hscope, hin⟩
  | _ => exact .inl hkey

omit [ScopeJson] [ContentSchema Op] in
/-- A key becomes local only while it is in the log and not received. -/
lemma Step.localized (h : Consistent r) (hstep : Step kind r r') {key : RecordKey}
    (hkey : LocalKey r' key) :
    LocalKey r key ∨ (key ∈ logKeys r.chain ∧ ¬ ReceivedKey r key) := by
  obtain ⟨scope', hscope', hin⟩ := hkey
  cases hstep with
  | bind hnone hscope =>
    cases hscope'
    rw [hscope.locals] at hin
    exact absurd hin ExtTreeSet.not_mem_empty
  | @ledger _ scope known hscope hfence hknown records =>
    cases hscope'
    rcases (h.ledger hscope hknown records).localized key hin with hold | ⟨hlog, hnot⟩
    · exact .inl ⟨scope, hscope, hold⟩
    · refine .inr ⟨(mem_known hknown).mp hlog, ?_⟩
      rintro ⟨s, hs, hreceived⟩
      rw [hscope] at hs
      cases hs
      exact hnot hreceived
  | @receivedBlob _ scope hscope hfence hash =>
    cases hscope'
    exact .inl ⟨scope, hscope, hin⟩
  | @select _ scope selected backfill segment hscope hfence hselected hcutoff =>
    obtain ⟨now, rfl⟩ := hselected
    cases hscope'
    exact .inl ⟨scope, hscope, hin⟩
  | _ => exact .inl ⟨scope', hscope', hin⟩

omit [ScopeJson] [ContentSchema Op] in
/-- What a path that is not the device's own does to the log and to local provenance. -/
lemma Path.provenance (h : Consistent r) (hpath : Path allowed r r') (hown : ¬ allowed .own) :
    (∀ key ∈ logKeys r'.chain, key ∈ logKeys r.chain ∨ ReceivedKey r' key)
      ∧ ∀ key, LocalKey r' key → LocalKey r key ∨ (key ∈ logKeys r.chain ∧ ¬ ReceivedKey r key) := by
  induction hpath with
  | refl => exact ⟨fun _ hkey => .inl hkey, fun _ hkey => .inl hkey⟩
  | @tail r₁ r₂ hpath hstep ih =>
    obtain ⟨kind, hkind, hstep⟩ := hstep
    obtain ⟨hadded, hlocal⟩ := ih
    have hpath : Path allowed r r₁ := hpath
    obtain ⟨hconsistent, hlater⟩ := hpath.preserves h
    have hkindown : kind ≠ .own := by
      rintro rfl
      rcases hkind with hkeep | hallowed
      · cases hkeep
      · exact hown hallowed
    refine ⟨?_, ?_⟩
    · intro key hkey
      rcases hstep.added hkindown hkey with hold | hreceived
      · exact (hadded key hold).imp_right (hstep.preserves hconsistent).2.received
      · exact .inr hreceived
    · intro key hkey
      rcases hstep.localized hconsistent hkey with hold | ⟨hlog, hnot⟩
      · exact hlocal key hold
      · -- it was in the log before the whole path, since it was not received on the way
        rcases hadded key hlog with hbefore | hreceived
        · exact .inr ⟨hbefore, fun hearlier => hnot (hlater.received hearlier)⟩
        · exact absurd hreceived hnot

end Replica

namespace World

open Replica

omit [ScopeJson] [ContentSchema Op] in
/-- The device's own steps leave the scope alone. -/
lemma scope_of_owning {r r' : Root} (hpath : Path Owning r r') : r'.scope = r.scope := by
  induction hpath with
  | refl => rfl
  | tail _ hstep ih =>
    obtain ⟨kind, hkind | hkind, hstep⟩ := hstep
    · subst hkind
      cases hstep <;> exact ih
    · have hown : kind = .own := hkind
      subst hown
      cases hstep <;> exact ih

omit [Checksum] [ScopeJson] [ContentSchema Op] in
/-- No call takes a step of the device itself. -/
lemma not_own_of_call {w : World} {i : ℕ} {request : Request} :
    ¬ w.kinds (.call i request) .own := by
  intro h
  unfold kinds at h
  cases hi : w.replicas[i]? with
  | none =>
    simp only [hi] at h
    exact h.elim
  | some replica =>
    simp only [hi] at h
    cases request with
    | setSharingScope backfill => rcases h with h | h <;> cases h
    | ingestRecords records => cases h.1
    | ingestInto records snapshot => cases h.1
    | confirmBlob snapshot key hash => cases h.1
    | _ => cases h

omit [Checksum] [ScopeJson] [ContentSchema Op] in
/-- Only what the device itself does takes its own steps. -/
lemma own_of_kinds {w : World} {happening : Happening} (h : w.kinds happening .own) :
    w.kinds happening = Owning := by
  cases happening with
  | script io => exact h.elim
  | capture calls => rfl
  | write bytes => rfl
  | openSpace space backfill => cases h
  | call i request => exact absurd h not_own_of_call

/-- Received provenance is never lost: a record that a call put into the log is on record as
received from then on, the ledgers only grow, and a key is on record as local only if it was in the
log before a peer's bytes were taken in. -/
structure Provenance (happenings : List Happening) : Prop where
  ingested : ∀ before i request after, happenings = before ++ .call i request :: after →
    ∀ key, key ∉ (run before).log → key ∈ (run (before ++ [.call i request])).log →
      ReceivedKey (run happenings).root key
  grows : ∀ before after, happenings = before ++ after →
    ∀ scope, (run before).root.scope = some scope →
      ∃ scope', (run happenings).root.scope = some scope'
        ∧ (∀ key ∈ scope.received, key ∈ scope'.received)
        ∧ ∀ hash ∈ scope.receivedBlobs, hash ∈ scope'.receivedBlobs
  locals : ∀ key, LocalKey (run happenings).root key →
    (∃ before after, happenings = before ++ after ∧ key ∈ (run before).log
      ∧ ¬ ReceivedKey (run before).root key)
    ∧ ∀ before i request after, happenings = before ++ .call i request :: after →
      key ∈ request.supplied.map Prod.fst → key ∈ (run before).log
        ∨ ((∀ answer, (run before).answer i request ≠ some (.ok answer))
          ∧ ¬ ReceivedKey (run (before ++ [.call i request])).root key)

/-- The state that a successful call was made in, and the one it led to. -/
lemma Sane.answered {w : World} (h : Sane w) {i : ℕ} {request : Request} {answer : Answer}
    (hanswer : w.answer i request = some (.ok answer)) :
    ∃ replica w', w.replicas[i]? = some replica
      ∧ w.next (.call i request) = ⟨w'.root, w.replicas.set i w'.replica⟩
      ∧ Answered request ⟨w.root, replica⟩ answer w' := by
  unfold World.answer at hanswer
  obtain ⟨replica, hi, hexec⟩ := Option.map_eq_some_iff.mp hanswer
  refine ⟨replica, (request.code.exec ⟨w.root, replica⟩).2, hi, ?_, ?_⟩
  · simp only [World.next, hi]
  · have hcode := wp_code (h.workspace hi) h.consistent.retains request
    exact wp_eq_ok hcode (Prod.ext hexec rfl)

omit [Blake3] [Checksum] [ScopeJson] in
/-- A prefix of a run that ends before another one does is a prefix of it. -/
lemma prefix_or_prefix {α : Type} {x y x' y' : List α} (h : x ++ y = x' ++ y') :
    (∃ z, x' = x ++ z) ∨ ∃ z, x = x' ++ z ∧ z ≠ [] := by
  rcases List.append_eq_append_iff.mp h with ⟨z, hz, -⟩ | ⟨z, hz, -⟩
  · exact .inl ⟨z, hz⟩
  · by_cases hnil : z = []
    · exact .inl ⟨[], by rw [hz, hnil, List.append_nil, List.append_nil]⟩
    · exact .inr ⟨z, hz, hnil⟩

/-- A key on record as local was in the log while it was not on record as received. -/
lemma local_run (happenings : List Happening) {key : RecordKey}
    (hkey : LocalKey (run happenings).root key) :
    ∃ before after, happenings = before ++ after ∧ key ∈ (run before).log
      ∧ ¬ ReceivedKey (run before).root key := by
  induction happenings using List.reverseRecOn with
  | nil =>
    obtain ⟨scope, hscope, -⟩ := hkey
    cases hscope
  | append_singleton happenings happening ih =>
    rw [run_append] at hkey
    have hsane := sane_run happenings
    have hpath := (hsane.next happening).2
    have hcases : LocalKey (run happenings).root key
        ∨ (key ∈ (run happenings).log ∧ ¬ ReceivedKey (run happenings).root key) := by
      by_cases hown : (run happenings).kinds happening .own
      · rw [own_of_kinds hown] at hpath
        unfold LocalKey at hkey
        rw [scope_of_owning hpath] at hkey
        exact .inl hkey
      · exact (hpath.provenance hsane.consistent hown).2 key hkey
    rcases hcases with hold | ⟨hlog, hnot⟩
    · obtain ⟨before, after, heq, hlog, hnot⟩ := ih hold
      exact ⟨before, after ++ [happening], by rw [heq, List.append_assoc], hlog, hnot⟩
    · exact ⟨happenings, [happening], rfl, hlog, hnot⟩

/-- Received provenance is never lost, in any run. -/
theorem provenance_kept (happenings : List Happening) : Provenance happenings := by
  refine ⟨?_, ?_, ?_⟩
  · rintro before i request after rfl key hnot hin
    have hsane := sane_run before
    have hpath := (hsane.next (.call i request)).2
    rw [run_append] at hin
    rcases (hpath.provenance hsane.consistent not_own_of_call).1 key hin with hold | hreceived
    · exact absurd hold hnot
    · have hlater := later_run (before ++ [.call i request]) after
      rw [run_append, List.append_assoc] at hlater
      exact hlater.received hreceived
  · rintro before after rfl scope hscope
    obtain ⟨scope', hscope', -, hreceived, hblobs⟩ := (later_run before after).scope scope hscope
    exact ⟨scope', hscope', hreceived, hblobs⟩
  · intro key hkey
    obtain ⟨start, rest, hstart, hlog, hnot⟩ := local_run happenings hkey
    refine ⟨⟨start, rest, hstart, hlog, hnot⟩, ?_⟩
    rintro before i request after hsplit hsupplied
    by_cases hreceived : ReceivedKey (run (before ++ [.call i request])).root key
    · -- the log held the key before the ledger did
      left
      have hboth : start ++ rest = (before ++ [.call i request]) ++ after := by
        rw [← hstart, hsplit, List.append_cons]
      rcases prefix_or_prefix hboth with ⟨z, hz⟩ | ⟨z, hz, -⟩
      · obtain hnil | ⟨z', happening, rfl⟩ := List.eq_nil_or_concat z
        · rw [hnil, List.append_nil] at hz
          rw [hz] at hreceived
          exact absurd hreceived hnot
        · rw [List.concat_eq_append, ← List.append_assoc] at hz
          have hbefore := (List.append_inj' hz rfl).1
          rw [hbefore]
          exact logKeys_of_prefix (later_run start z').history hlog
      · rw [hz] at hnot
        exact absurd ((later_run _ z).received hreceived) hnot
    · by_cases hin : key ∈ (run before).log
      · exact .inl hin
      · refine .inr ⟨?_, hreceived⟩
        intro answer hanswer
        obtain ⟨replica, w', -, hnext, hanswered⟩ := (sane_run before).answered hanswer
        obtain ⟨record, hrecord, rfl⟩ := List.mem_map.mp hsupplied
        obtain ⟨scope, hscope, hplaced⟩ := hanswered.placed (List.ne_nil_of_mem hrecord)
        rcases hplaced record hrecord with htaken | ⟨s, retained, -, hfirst, -⟩
        · apply hreceived
          rw [run_append, hnext]
          exact ⟨scope, hscope, htaken⟩
        · apply hin
          unfold log
          rw [mem_logKeys, hfirst]
          rfl

end World

/-! ## Changes of scope -/

namespace Replica

variable {r r' : Root} {kind : Kind} {allowed : Kind → Prop}

/-- A call of an earlier revision, or with a snapshot of another one. -/
def Stale (r : Root) (revision : ℕ) (request : Request) : Prop :=
  ¬ r.Matches revision ∨ ∃ snapshot, request.given = some snapshot ∧ snapshot.scopeRevision ≠ revision

omit [ScopeJson] [ContentSchema Op] in
/-- A call of an earlier revision takes no durable step. -/
lemma Path.stale {revision : ℕ} {request : Request} (hpath : Path (Taking revision request) r r')
    (hselects : request.selects = none) (hstale : Stale r revision request) :
    Path Idle r r' := by
  induction hpath with
  | refl => exact .refl _
  | @tail r₁ r₂ _ hstep ih =>
    obtain ⟨kind, hkind, hstep⟩ := hstep
    have hfence := ih.idle.2.1
    rcases hkind with rfl | hkind
    · exact ih.keep hstep
    · -- the step would need the fence of the call's own revision
      exfalso
      have hmatches : r₁.Matches revision → r.Matches revision := by
        unfold Root.Matches
        rw [hfence]
        exact id
      have hingest : ∀ snapshot, request.given = snapshot → ¬ Ingesting revision snapshot kind := by
        rintro snapshot hgiven ⟨rfl, hrevision⟩
        rcases hstale with hold | ⟨s, hs, hne⟩
        · cases hstep with
          | ledger hscope hmatch hknown records => exact hold (hmatches hmatch)
          | receive hscope hmatch hwrote hreceived => exact hold (hmatches hmatch)
        · exact hne (hrevision s (hgiven.symm.trans hs))
      have hpublish : ∀ hash, Publishing revision hash kind → r.Matches revision := by
        rintro hash rfl
        cases hstep with
        | blob hscope hmatch bytes hfresh => exact hmatches hmatch
        | receivedBlob hscope hmatch hash => exact hmatches hmatch
      cases request with
      | ingestRecords records => exact hingest none rfl hkind
      | ingestInto records snapshot => exact hingest (some snapshot) rfl hkind
      | ingestBlob key hash bytes =>
        rcases hstale with hold | ⟨s, hs, -⟩
        · exact hold (hpublish hash hkind)
        · cases hs
      | confirmBlob snapshot key hash =>
        rcases hstale with hold | ⟨s, hs, hne⟩
        · exact hold (hpublish hash hkind.1)
        · cases hs
          exact hne hkind.2
      | setSharingScope backfill => cases hselects
      | _ => exact hkind

/-- The policy of a scope is another one's. -/
structure SamePolicy (scope scope' : Scope) : Prop where
  revision : scope'.revision = scope.revision
  cutoff : scope'.cutoff = scope.cutoff
  excluded : ∀ key ∈ scope'.excluded, key ∈ scope.excluded

omit [ScopeJson] [ContentSchema Op] in
/-- Only a selection changes the policy. -/
lemma Path.policy (h : Consistent r) (hpath : Path allowed r r') (hfence : ¬ allowed .fence)
    (hselect : ∀ backfill, ¬ allowed (.select backfill)) {scope : Scope}
    (hscope : r.scope = some scope) :
    r'.revision = r.revision ∧ ∃ scope', r'.scope = some scope' ∧ SamePolicy scope scope' := by
  induction hpath with
  | refl => exact ⟨rfl, scope, hscope, rfl, rfl, fun _ hkey => hkey⟩
  | @tail r₁ r₂ hpath hstep ih =>
    obtain ⟨hrevision, scope₁, hscope₁, hpolicy⟩ := ih
    obtain ⟨kind, hkind, hstep⟩ := hstep
    have hpath : Path allowed r r₁ := hpath
    have hconsistent := (hpath.preserves h).1
    cases hstep with
    | bind hnone _ =>
      rw [hnone] at hscope₁
      cases hscope₁
    | ledger hs _ hknown records =>
      rw [hs] at hscope₁
      cases hscope₁
      have hledger := hconsistent.ledger hs hknown records
      exact ⟨hrevision, _, rfl, hledger.revision.trans hpolicy.revision,
        hledger.cutoff.trans hpolicy.cutoff,
        fun key hkey => hpolicy.excluded key (hledger.excluded key hkey)⟩
    | receivedBlob hs _ hash =>
      rw [hs] at hscope₁
      cases hscope₁
      exact ⟨hrevision, _, rfl, hpolicy.revision, hpolicy.cutoff, hpolicy.excluded⟩
    | fence _ =>
      rcases hkind with hkeep | hallowed
      · cases hkeep
      · exact absurd hallowed hfence
    | @select _ _ _ backfill _ _ _ _ _ =>
      rcases hkind with hkeep | hallowed
      · cases hkeep
      · exact absurd hallowed (hselect backfill)
    | _ => exact ⟨hrevision, scope₁, hscope₁, hpolicy⟩

end Replica

namespace World

open Replica

/-- Nothing was read into the log, the ledgers, the content or the consent. -/
structure Untouched (w w' : World) : Prop where
  scope : w'.root.scope = w.root.scope
  revision : w'.root.revision = w.root.revision
  blobs : w'.root.blobs = w.root.blobs
  log : w'.log = w.log

/-- A call is refused: it fails and leaves no trace. -/
def Refused (w : World) (i : ℕ) (request : Request) : Prop :=
  (∃ e, w.answer i request = some (.error e)) ∧ Untouched w (w.next (.call i request))

/-- The policy that was selected: all of the log, or nothing of it. -/
structure Policy (backfill : Bool) (w : World) (scope : Scope) : Prop where
  excluded : ∀ key, key ∉ scope.excluded
  cutoff : if backfill then scope.cutoff = none
    else ∃ c, scope.cutoff = some c ∧ ∀ r ∈ history w.root.chain, r.2.segment < c.firstSegment

/-- A change of scope fails closed, wherever a change stops and whichever replicas are used. -/
structure FailsClosed (happenings : List Happening) : Prop where
  /-- Once a fence is durable, no replica and no snapshot of an earlier revision is served. -/
  earlier : ∀ before after, happenings = before ++ after → ∀ f, (run before).root.revision = some f →
    ∀ i replica request, (run happenings).replicas[i]? = some replica → request.selects = none →
      (replica.scopeRevision < f ∨ ∃ s, request.given = some s ∧ s.scopeRevision < f) →
        Refused (run happenings) i request
  /-- Over a fence without its matching scope, no replica is served at all. -/
  unmatched : ∀ f, (run happenings).root.revision = some f →
    (∀ scope, (run happenings).root.scope = some scope → scope.revision ≠ f) →
      ∀ i replica request, (run happenings).replicas[i]? = some replica →
        request.selects = none → Refused (run happenings) i request
  /-- A selection that succeeds is in force, above every replica that was ever open, until another
  selection is made. -/
  selected : ∀ before i backfill summary after,
    happenings = before ++ .call i (.setSharingScope backfill) :: after →
      (run before).answer i (.setSharingScope backfill) = some (.ok (.scope summary)) →
        ∃ scope, (run (before ++ [.call i (.setSharingScope backfill)])).root.scope = some scope
          ∧ (run (before ++ [.call i (.setSharingScope backfill)])).root.revision
            = some scope.revision
          ∧ summary = scope.summary
          ∧ Policy backfill (run (before ++ [.call i (.setSharingScope backfill)])) scope
          ∧ (∀ earlier, earlier <+: before → ∀ replica ∈ (run earlier).replicas,
            replica.scopeRevision < scope.revision)
          ∧ ((∀ happening ∈ after, happening.selects = none) →
            (run happenings).root.revision = some scope.revision
              ∧ ∃ final, (run happenings).root.scope = some final ∧ SamePolicy scope final)

/-- A call that is stale is refused. -/
lemma Sane.refused {w : World} (h : Sane w) {i : ℕ} {replica : Replica} {request : Request}
    (hi : w.replicas[i]? = some replica) (hselects : request.selects = none)
    (hstale : Stale w.root replica.scopeRevision request) : Refused w i request := by
  have hpath := (h.next (.call i request)).2
  unfold kinds at hpath
  simp only [hi] at hpath
  obtain ⟨hscope, hrevision, hblobs, hhistory⟩ := (hpath.stale hselects hstale).idle
  refine ⟨?_, hscope, hrevision, hblobs, by unfold log logKeys; rw [hhistory]⟩
  cases hanswer : w.answer i request with
  | none =>
    unfold World.answer at hanswer
    rw [hi] at hanswer
    cases hanswer
  | some result =>
    cases result with
    | error e => exact ⟨e, rfl⟩
    | ok answer =>
      obtain ⟨replica', w', hi', -, hanswered⟩ := h.answered hanswer
      rw [hi] at hi'
      cases hi'
      obtain ⟨hmatches, hgiven⟩ := hanswered.live hselects
      rcases hstale with hold | ⟨s, hs, hne⟩
      · exact absurd hmatches hold
      · exact absurd (hgiven s hs) hne

omit [Schema Op] [Blake3] [Checksum] [ScopeJson] [ContentSchema Op] in
/-- A fence of another revision does not match. -/
lemma not_matches {r : Root} {f revision : ℕ} (h : r.revision = some f) (hne : revision ≠ f) :
    ¬ r.Matches revision := by
  rintro (hsome | ⟨hnone, -⟩)
  · rw [h] at hsome
    cases hsome
    exact hne rfl
  · rw [h] at hnone
    cases hnone

omit [Checksum] [ScopeJson] [ContentSchema Op] in
/-- Without a selection no step raises the fence or saves a selected scope. -/
lemma kinds_of_not_selects {w : World} {happening : Happening}
    (h : happening.selects = none) :
    ¬ w.kinds happening .fence ∧ ∀ backfill, ¬ w.kinds happening (.select backfill) := by
  have hkind : ∀ kind, w.kinds happening kind → kind ≠ .fence ∧ ∀ backfill, kind ≠ .select backfill := by
    intro kind hkind
    cases happening with
    | script io => exact hkind.elim
    | capture calls =>
      cases hkind
      exact ⟨nofun, nofun⟩
    | write bytes =>
      cases hkind
      exact ⟨nofun, nofun⟩
    | openSpace space backfill =>
      cases hkind
      exact ⟨nofun, nofun⟩
    | call i request =>
      unfold kinds at hkind
      cases hi : w.replicas[i]? with
      | none =>
        simp only [hi] at hkind
        exact hkind.elim
      | some replica =>
        simp only [hi] at hkind
        cases request with
        | setSharingScope backfill => cases h
        | ingestRecords records =>
          rw [hkind.1]
          exact ⟨nofun, nofun⟩
        | ingestInto records snapshot =>
          rw [hkind.1]
          exact ⟨nofun, nofun⟩
        | ingestBlob key hash bytes =>
          cases hkind
          exact ⟨nofun, nofun⟩
        | confirmBlob snapshot key hash =>
          cases hkind.1
          exact ⟨nofun, nofun⟩
        | _ => exact hkind.elim
  exact ⟨fun hfence => (hkind _ hfence).1 rfl, fun backfill hselect => (hkind _ hselect).2 backfill rfl⟩

/-- Without a selection the policy stays in force. -/
lemma policy_run (before after : List Happening)
    (h : ∀ happening ∈ after, happening.selects = none) {scope : Scope}
    (hscope : (run before).root.scope = some scope) :
    (run (before ++ after)).root.revision = (run before).root.revision
      ∧ ∃ final, (run (before ++ after)).root.scope = some final ∧ SamePolicy scope final := by
  induction after using List.reverseRecOn with
  | nil =>
    rw [List.append_nil]
    exact ⟨rfl, scope, hscope, rfl, rfl, fun _ hkey => hkey⟩
  | append_singleton after happening ih =>
    obtain ⟨hrevision, middle, hmiddle, hpolicy⟩ :=
      ih fun happening hmem => h happening (List.mem_append_left _ hmem)
    have hsane := sane_run (before ++ after)
    obtain ⟨hfence, hselect⟩ := kinds_of_not_selects (w := run (before ++ after))
      (h happening (by simp))
    obtain ⟨hrevision', final, hfinal, hpolicy'⟩ :=
      (hsane.next happening).2.policy hsane.consistent hfence hselect hmiddle
    rw [← List.append_assoc, run_append]
    exact ⟨hrevision'.trans hrevision, final, hfinal, hpolicy'.revision.trans hpolicy.revision,
      hpolicy'.cutoff.trans hpolicy.cutoff,
      fun key hkey => hpolicy.excluded key (hpolicy'.excluded key hkey)⟩

/-- A change of scope fails closed in every run. -/
theorem fails_closed (happenings : List Happening) : FailsClosed happenings := by
  have hsane := sane_run happenings
  refine ⟨?_, ?_, ?_⟩
  · rintro before after rfl f hf i replica request hi hselects hearlier
    obtain ⟨f', hf', hle⟩ := (later_run before after).fence f hf
    apply hsane.refused hi hselects
    rcases hearlier with hreplica | ⟨s, hs, hold⟩
    · exact .inl (not_matches hf' (by omega))
    · by_cases heq : s.scopeRevision = replica.scopeRevision
      · exact .inl (not_matches hf' (by omega))
      · exact .inr ⟨s, hs, heq⟩
  · intro f hf hunmatched i replica request hi hselects
    obtain ⟨scope, hscope, hle⟩ := hsane.revisions replica (List.mem_of_getElem? hi)
    apply hsane.refused hi hselects
    -- the fence lies above the scope, and the scope above the replica
    have hnext : f = scope.revision + 1 := by
      rcases hsane.consistent.fenced.2 scope hscope with (hmatch | ⟨hmatch, -⟩) | hmatch
      · rw [hf] at hmatch
        cases hmatch
        exact absurd rfl (hunmatched scope hscope)
      · rw [hf] at hmatch
        cases hmatch
      · rw [hf] at hmatch
        exact Option.some.inj hmatch
    exact .inl (not_matches hf (by omega))
  · rintro before i backfill summary after rfl hanswer
    obtain ⟨replica, w', hi, hnext, hanswered⟩ := (sane_run before).answered hanswer
    obtain ⟨selected, hchose, hsummary, -⟩ := hanswered.selected backfill rfl
    have hroot : (run (before ++ [.call i (.setSharingScope backfill)])).root = w'.root := by
      rw [run_append, hnext]
    obtain ⟨scope, segment, hscope, ⟨now, heq⟩, hcutoff⟩ := hchose.selected
    refine ⟨selected, by rw [hroot]; exact hchose.file, by rw [hroot]; exact hchose.fence,
      Answer.scope.inj hsummary, ⟨?_, ?_⟩, ?_, ?_⟩
    · intro key hkey
      rw [heq] at hkey
      exact absurd hkey ExtTreeSet.not_mem_empty
    · rw [hroot]
      cases backfill with
      | true =>
        rw [heq, show segment = none from hcutoff]
        rfl
      | false =>
        obtain ⟨n, rfl, hcuts⟩ := hcutoff
        refine ⟨⟨n, now⟩, ?_, hcuts.before⟩
        rw [heq]
        rfl
    · rintro earlier ⟨rest, rfl⟩ other hother
      obtain ⟨old, hold, hle⟩ := (sane_run earlier).revisions other hother
      obtain ⟨scope', hscope', hle', -⟩ := (later_run earlier rest).scope old hold
      have hsame : some scope' = some scope := hscope'.symm.trans hscope
      cases hsame
      rw [heq]
      show other.scopeRevision < scope.revision + 1
      omega
    · intro hafter
      have hfile : (run (before ++ [.call i (.setSharingScope backfill)])).root.scope
          = some selected := by
        rw [hroot]
        exact hchose.file
      have hkept := policy_run (before ++ [.call i (.setSharingScope backfill)]) after hafter hfile
      rw [hroot, hchose.fence, List.append_assoc] at hkept
      exact hkept

end World

/-! ## Sharing from now on -/

namespace Replica

variable {r r' : Root} {kind : Kind} {allowed : Kind → Prop}

/-- The keys were in the log before the cutoff that is in force. -/
def Hides (keys : List RecordKey) (r : Root) : Prop :=
  ∃ scope c, r.scope = some scope ∧ scope.cutoff = some c
    ∧ ∀ key ∈ keys, ∃ record, firstOf (history r.chain) key = some record
      ∧ record.segment < c.firstSegment

omit [ScopeJson] [ContentSchema Op] in
/-- The first occurrence of a key does not change. -/
lemma firstOf_prefix {d d' : Directory} (h : history d <+: history d') {key : RecordKey}
    {record : RetainedRecord} (hfirst : firstOf (history d) key = some record) :
    firstOf (history d') key = some record := by
  obtain ⟨new, hnew⟩ := h
  rw [← hnew, firstOf_append, hfirst]
  rfl

omit [ScopeJson] [ContentSchema Op] in
lemma Hides.wrote {keys : List RecordKey} (h : Hides keys r) {d : Directory} {added : List Bytes}
    (hwrote : Wrote r.chain d added) : Hides keys { r with chain := d } := by
  obtain ⟨scope, c, hscope, hc, hkeys⟩ := h
  refine ⟨scope, c, hscope, hc, fun key hkey => ?_⟩
  obtain ⟨record, hfirst, hlt⟩ := hkeys key hkey
  exact ⟨record, firstOf_prefix (prefix_of_wrote hwrote) hfirst, hlt⟩

omit [ScopeJson] [ContentSchema Op] in
/-- Every step hides what was hidden, unless all history is selected. -/
lemma Step.hides {keys : List RecordKey} (hr : Consistent r) (h : Hides keys r)
    (hstep : Step kind r r') (hkind : kind ≠ .select true) : Hides keys r' := by
  obtain ⟨scope, c, hscope, hc, hkeys⟩ := id h
  cases hstep with
  | script io => exact ⟨scope, c, hscope, hc, hkeys⟩
  | chain hwrote => exact h.wrote hwrote
  | append hwrote => exact h.wrote hwrote
  | content bytes hfresh => exact ⟨scope, c, hscope, hc, hkeys⟩
  | bind hnone _ =>
    rw [hnone] at hscope
    cases hscope
  | ledger hs _ hknown records =>
    rw [hs] at hscope
    cases hscope
    exact ⟨_, c, rfl, (hr.ledger hs hknown records).cutoff.trans hc, hkeys⟩
  | receive _ _ hwrote _ => exact h.wrote hwrote
  | blob _ _ bytes hfresh => exact ⟨scope, c, hscope, hc, hkeys⟩
  | receivedBlob hs _ hash =>
    rw [hs] at hscope
    cases hscope
    exact ⟨_, c, rfl, hc, hkeys⟩
  | fence _ => exact ⟨scope, c, hscope, hc, hkeys⟩
  | @select _ _ selected backfill segment hs _ hselected hcutoff =>
    cases backfill with
    | true => exact absurd rfl hkind
    | false =>
      obtain ⟨n, rfl, hcuts⟩ := hcutoff
      obtain ⟨now, rfl⟩ := hselected
      refine ⟨_, ⟨n, now⟩, rfl, rfl, fun key hkey => ?_⟩
      obtain ⟨record, hfirst, -⟩ := hkeys key hkey
      refine ⟨record, hfirst, ?_⟩
      obtain ⟨o, ho, rfl⟩ := Option.map_eq_some_iff.mp hfirst
      exact hcuts.before o (List.mem_of_find?_eq_some ho)

omit [ScopeJson] [ContentSchema Op] in
lemma Path.hides {keys : List RecordKey} (hr : Consistent r) (h : Hides keys r)
    (hpath : Path allowed r r') (hselect : ¬ allowed (.select true)) : Hides keys r' := by
  induction hpath with
  | refl => exact h
  | @tail r₁ r₂ hpath hstep ih =>
    obtain ⟨kind, hkind, hstep⟩ := hstep
    have hpath : Path allowed r r₁ := hpath
    apply hstep.hides (hpath.preserves hr).1 ih
    rintro rfl
    rcases hkind with hkeep | hallowed
    · cases hkeep
    · exact hselect hallowed

/-- Under the selected revision, every record that was not in the log lies after the cutoff. -/
def Discloses (revision : ℕ) (old : List RecordKey) (r : Root) : Prop :=
  ∃ scope, r.scope = some scope ∧ revision ≤ scope.revision
    ∧ (scope.revision = revision → ∃ c, scope.cutoff = some c ∧ (∀ key, key ∉ scope.excluded)
      ∧ ∀ key record, firstOf (history r.chain) key = some record → key ∉ old →
        c.firstSegment ≤ record.segment)

omit [ScopeJson] [ContentSchema Op] in
lemma Discloses.wrote {revision : ℕ} {old : List RecordKey} (hr : Consistent r)
    (h : Discloses revision old r) {d : Directory} {added : List Bytes}
    (hwrote : Wrote r.chain d added) : Discloses revision old { r with chain := d } := by
  obtain ⟨scope, hscope, hle, hopen⟩ := h
  refine ⟨scope, hscope, hle, fun heq => ?_⟩
  obtain ⟨c, hc, hexcluded, hfirst⟩ := hopen heq
  refine ⟨c, hc, hexcluded, fun key record hrecord hnew => ?_⟩
  obtain ⟨new, hhistory, -, hsegments⟩ := hwrote.history
  rw [hhistory, firstOf_append] at hrecord
  cases hold : firstOf (history r.chain) key with
  | some first =>
    rw [hold, Option.some_or] at hrecord
    rw [← Option.some.inj hrecord]
    exact hfirst key first hold hnew
  | none =>
    -- a new record lies in the last segment or after it
    rw [hold, Option.none_or] at hrecord
    obtain ⟨o, ho, rfl⟩ := Option.map_eq_some_iff.mp hrecord
    have hsegment := hsegments o (List.mem_of_find?_eq_some ho)
    have hcutoff := hr.cutoff scope hscope c hc
    omega

omit [ScopeJson] [ContentSchema Op] in
lemma Step.discloses {revision : ℕ} {old : List RecordKey} (hr : Consistent r)
    (h : Discloses revision old r) (hstep : Step kind r r') : Discloses revision old r' := by
  obtain ⟨scope, hscope, hle, hopen⟩ := id h
  cases hstep with
  | script io => exact ⟨scope, hscope, hle, hopen⟩
  | chain hwrote => exact h.wrote hr hwrote
  | append hwrote => exact h.wrote hr hwrote
  | content bytes hfresh => exact ⟨scope, hscope, hle, hopen⟩
  | bind hnone _ =>
    rw [hnone] at hscope
    cases hscope
  | ledger hs _ hknown records =>
    rw [hs] at hscope
    cases hscope
    have hledger := hr.ledger hs hknown records
    refine ⟨_, rfl, by rw [hledger.revision]; exact hle, fun heq => ?_⟩
    obtain ⟨c, hc, hexcluded, hfirst⟩ := hopen (hledger.revision.symm.trans heq)
    exact ⟨c, hledger.cutoff.trans hc, fun key hkey => hexcluded key (hledger.excluded key hkey),
      hfirst⟩
  | receive _ _ hwrote _ => exact h.wrote hr hwrote
  | blob _ _ bytes hfresh => exact ⟨scope, hscope, hle, hopen⟩
  | receivedBlob hs _ hash =>
    rw [hs] at hscope
    cases hscope
    exact ⟨_, rfl, hle, hopen⟩
  | fence _ => exact ⟨scope, hscope, hle, hopen⟩
  | @select _ _ selected backfill segment hs _ hselected hcutoff =>
    rw [hs] at hscope
    cases hscope
    obtain ⟨now, rfl⟩ := hselected
    refine ⟨_, rfl, le_trans hle (Nat.le_succ _), fun heq => ?_⟩
    have heq : scope.revision + 1 = revision := heq
    omega

omit [ScopeJson] [ContentSchema Op] in
lemma Path.discloses {revision : ℕ} {old : List RecordKey} (hr : Consistent r)
    (h : Discloses revision old r) (hpath : Path allowed r r') : Discloses revision old r' := by
  induction hpath with
  | refl => exact h
  | @tail r₁ r₂ hpath hstep ih =>
    obtain ⟨kind, -, hstep⟩ := hstep
    have hpath : Path allowed r r₁ := hpath
    exact hstep.discloses (hpath.preserves hr).1 ih

omit [ScopeJson] [ContentSchema Op] in
/-- What an export snapshot contains. -/
lemma Frozen.contains_iff {snapshot : Snapshot} {w : Workspace} (h : Frozen false snapshot w)
    {key : RecordKey} : snapshot.contains key = true ↔ Exportable w.root key := by
  rw [Snapshot.contains_iff]
  constructor
  · intro hsome
    obtain ⟨bytes, hrecord⟩ := hsome
    obtain ⟨scope, record, hscope, hfirst, -, hpermits⟩ := h.record_iff.mp hrecord
    refine ⟨scope, record, hscope, hfirst, ?_⟩
    simpa using hpermits
  · intro hexportable
    obtain ⟨scope, record, hscope, hfirst, hexcludes⟩ := hexportable
    exact ⟨record.bytes, h.record_iff.mpr ⟨scope, record, hscope, hfirst, rfl, .inl hexcludes⟩⟩

end Replica

namespace World

open Replica

/-- Sharing from now on never leaks earlier history, and shares all that is appended later. -/
structure FromNowOn (before : List Happening) (i : ℕ) (summary : SharingScope)
    (after : List Happening) (j : ℕ) (snapshot : Snapshot) : Prop where
  /-- Nothing that was in the log is offered until all history is selected. -/
  withheld : (∀ happening ∈ after, happening.selects ≠ some true) →
    ∀ key ∈ (run before).log, snapshot.contains key = false
  /-- A snapshot of the selected revision offers everything that was appended since. -/
  shared : snapshot.scopeRevision = summary.revision →
    ∀ key ∈ (run (before ++ .call i (.setSharingScope false) :: after)).log,
      key ∉ (run before).log → snapshot.contains key = true

omit [Checksum] [ScopeJson] [ContentSchema Op] in
/-- Only a selection of all history saves such a scope. -/
lemma kinds_of_not_all {w : World} {happening : Happening} (h : happening.selects ≠ some true) :
    ¬ w.kinds happening (.select true) := by
  cases hselects : happening.selects with
  | none => exact (kinds_of_not_selects hselects).2 true
  | some backfill =>
    cases happening with
    | call i request =>
      cases request with
      | setSharingScope b =>
        cases hi : w.replicas[i]? with
        | none =>
          simp only [kinds, hi]
          exact id
        | some replica =>
          simp only [kinds, hi]
          rintro (hkind | hkind)
          · cases hkind
          · cases hkind
            exact h rfl
      | _ => cases hselects
    | _ => cases hselects

lemma hides_run {keys : List RecordKey} (before after : List Happening)
    (h : Hides keys (run before).root)
    (hafter : ∀ happening ∈ after, happening.selects ≠ some true) :
    Hides keys (run (before ++ after)).root := by
  induction after using List.reverseRecOn with
  | nil => rwa [List.append_nil]
  | append_singleton after happening ih =>
    have hsane := sane_run (before ++ after)
    have hhides := ih fun happening hmem => hafter happening (List.mem_append_left _ hmem)
    rw [← List.append_assoc, run_append]
    exact (hsane.next happening).2.hides hsane.consistent hhides
      (kinds_of_not_all (hafter happening (by simp)))

lemma discloses_run {revision : ℕ} {old : List RecordKey} (before after : List Happening)
    (h : Discloses revision old (run before).root) :
    Discloses revision old (run (before ++ after)).root := by
  induction after using List.reverseRecOn with
  | nil => rwa [List.append_nil]
  | append_singleton after happening ih =>
    have hsane := sane_run (before ++ after)
    rw [← List.append_assoc, run_append]
    exact (hsane.next happening).2.discloses hsane.consistent ih

/-- After a selection from now on, every export snapshot of every later state withholds what was in
the log, and one of that selection offers all that is new. -/
theorem shares_from_now_on (before : List Happening) (i : ℕ) (summary : SharingScope)
    (after : List Happening) (j : ℕ) (snapshot : Snapshot)
    (hselect : (run before).answer i (.setSharingScope false) = some (.ok (.scope summary)))
    (hsnapshot : (run (before ++ .call i (.setSharingScope false) :: after)).answer j .snapshot
      = some (.ok (.snapshot snapshot))) :
    FromNowOn before i summary after j snapshot := by
  -- the state right after the selection
  obtain ⟨replica, w₁, hi, hnext, hanswered⟩ := (sane_run before).answered hselect
  obtain ⟨selected, hchose, hsummary, -⟩ := hanswered.selected false rfl
  obtain ⟨scope, segment, hscope, ⟨now, rfl⟩, n, rfl, hcuts⟩ := hchose.selected
  cases Answer.scope.inj hsummary
  have hroot : (run (before ++ [.call i (.setSharingScope false)])).root = w₁.root := by
    rw [run_append, hnext]
  have hlog : ∀ key, key ∈ (run before).log ↔ (firstOf (history w₁.root.chain) key).isSome := by
    intro key
    unfold log
    rw [mem_logKeys, hchose.history]
  -- the state of the snapshot
  set w := run (before ++ .call i (.setSharingScope false) :: after) with hw
  have hsane : Sane w := sane_run _
  have hsplit : w = run ((before ++ [.call i (.setSharingScope false)]) ++ after) := by
    rw [hw, List.append_assoc]
    rfl
  obtain ⟨replica', w', hj, hnext', hanswered'⟩ := hsane.answered hsnapshot
  obtain ⟨s, hs, hfrozen⟩ := hanswered'.exported rfl
  cases Answer.snapshot.inj hs
  obtain ⟨shapes, hshapes⟩ := hanswered'.sound.holds
  have hcontains : ∀ key, snapshot.contains key = true ↔ Exportable w'.root key :=
    fun _ => hfrozen.contains_iff
  have hidle : Path Idle w.root w'.root := hanswered'.path
  obtain ⟨hscope', -, -, hhistory'⟩ := hidle.idle
  refine ⟨?_, ?_⟩
  · intro hafter key hkey
    have hhides : Hides (run before).log (run (before ++ [.call i (.setSharingScope false)])).root := by
      rw [hroot]
      refine ⟨_, ⟨n, now⟩, hchose.file, rfl, fun key hkey => ?_⟩
      obtain ⟨record, hfirst⟩ := Option.isSome_iff_exists.mp ((hlog key).mp hkey)
      refine ⟨record, hfirst, ?_⟩
      obtain ⟨o, ho, rfl⟩ := Option.map_eq_some_iff.mp hfirst
      exact hcuts.before o (List.mem_of_find?_eq_some ho)
    have hlater := hides_run _ after hhides hafter
    rw [← hsplit] at hlater
    obtain ⟨s, c, hs, hc, hkeys⟩ := hlater
    obtain ⟨record, hfirst, hlt⟩ := hkeys key hkey
    rw [← Bool.not_eq_true, hcontains]
    rintro ⟨s', record', hs', hfirst', hexcludes⟩
    rw [hscope', hs] at hs'
    cases hs'
    rw [hhistory', hfirst] at hfirst'
    cases hfirst'
    unfold Scope.excludes Scope.beforeCutoff at hexcludes
    rw [hc] at hexcludes
    simp [hlt] at hexcludes
  · intro hrevision key hkey hnew
    have hdiscloses : Discloses (scope.revision + 1) (run before).log
        (run (before ++ [.call i (.setSharingScope false)])).root := by
      rw [hroot]
      refine ⟨_, hchose.file, le_rfl, fun _ => ⟨⟨n, now⟩, rfl, ?_, ?_⟩⟩
      · intro key
        exact ExtTreeSet.not_mem_empty
      · intro key record hfirst hnot
        exact absurd ((hlog key).mpr (by rw [hfirst]; rfl)) hnot
    have hlater := discloses_run _ after hdiscloses
    rw [← hsplit] at hlater
    obtain ⟨s, hs, hle, hopen⟩ := hlater
    obtain ⟨inForce, known, hforce, -, -, -, hsame, -⟩ := hfrozen.shared
    have hfile := hforce.file
    rw [hscope', hs] at hfile
    cases hfile
    obtain ⟨c, hc, hexcluded, hfirst⟩ := hopen (hsame.symm.trans hrevision)
    obtain ⟨record, hrecord⟩ := Option.isSome_iff_exists.mp (mem_logKeys.mp hkey)
    have hsegment := hfirst key record hrecord hnew
    rw [hcontains]
    refine ⟨s, record, by rw [hscope', hs], by rw [hhistory', hrecord], ?_⟩
    unfold Scope.excludes Scope.beforeCutoff
    rw [hc, Bool.or_eq_false_iff]
    refine ⟨?_, by simpa using hsegment⟩
    rw [← Bool.not_eq_true, ExtTreeSet.contains_iff_mem]
    exact hexcluded key

end World
end EditChain.Sync

namespace EditChain.Sync

open Core Fallible Store

section Messages

local instance worldSchema : Schema OpId := messageSchema
local instance worldDigests : Blake3 := messageDigests
local instance worldContent : ContentSchema OpId := messageContent
local instance worldChecksum : Checksum := crc32cChecksum
local instance worldJson : ScopeJson := ⟨fun _ => 0⟩

/-- The device writes one record to its log. -/
def messageCapture (bytes : Bytes) : Happening :=
  .capture [.reopen 4096 {}, .appendPage ((Page.new 0).addRecord 0 bytes) {}]

/-- The message is in the log when the space is opened. -/
def messagesBefore : List Happening := [messageCapture messageV1, .openSpace "space" true]

/-- It is written once more after the selection. -/
def messagesAfter : List Happening := [messageCapture messageV1]

/-- Whether a call was answered with a selection. -/
def isScope : Except IoError Answer → Bool
  | .ok (.scope _) => true
  | _ => false

/-- Whether a call was answered with a snapshot. -/
def isSnapshot : Except IoError Answer → Bool
  | .ok (.snapshot _) => true
  | _ => false

/-- The exact duplicate stays withheld. -/
theorem World.shares_from_now_on_messages : ∃ summary snapshot,
    (World.run messagesBefore).answer 0 (.setSharingScope false) = some (.ok (.scope summary))
      ∧ (World.run (messagesBefore ++ .call 0 (.setSharingScope false) :: messagesAfter)).answer 0
        .snapshot = some (.ok (.snapshot snapshot))
      ∧ World.FromNowOn messagesBefore 0 summary messagesAfter 0 snapshot := by
  have hselect : ((World.run messagesBefore).answer 0 (.setSharingScope false)).any isScope
      = true := by
    decide +kernel
  have hsnapshot : ((World.run (messagesBefore ++ .call 0 (.setSharingScope false)
      :: messagesAfter)).answer 0 .snapshot).any isSnapshot = true := by
    decide +kernel
  obtain ⟨result, hresult, hscope⟩ := (Option.any_eq_true _ _).mp hselect
  obtain ⟨frozen, hfrozen, hshot⟩ := (Option.any_eq_true _ _).mp hsnapshot
  unfold isScope at hscope
  unfold isSnapshot at hshot
  split at hscope
  · next summary =>
    split at hshot
    · next snapshot =>
      exact ⟨summary, snapshot, hresult, hfrozen,
        World.shares_from_now_on _ _ _ _ _ _ hresult hfrozen⟩
    · cases hshot
  · cases hscope

end Messages

end EditChain.Sync
