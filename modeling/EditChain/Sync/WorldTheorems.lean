import EditChain.Sync.SharingTheorems
import EditChain.Sync.World

/-!
# Consent and provenance over whole runs

Every durable step keeps the files of a device consistent and only adds to what is on record; the
properties of the sharing scope follow from that, for every order of calls on any number of
replicas, whatever fails.
-/

namespace EditChain.Sync

open Core Fallible Store
open Std (ExtTreeMap ExtTreeSet)

variable {Op : Type} [Schema Op] [Blake3] [Checksum] [ScopeJson] [ContentSchema Op]

namespace Replica

/-! ## Consistent files -/

/-- The fence is the one the scope on file expects, or the next one. -/
def Fenced (r : Root) : Prop :=
  (r.scope = none → r.revision = none)
    ∧ ∀ scope, r.scope = some scope →
      r.Matches scope.revision ∨ r.revision = some (scope.revision + 1)

/-- What holds of the files between any two durable steps. -/
structure Consistent (r : Root) : Prop where
  retains : Retains r
  fenced : Fenced r
  cutoff : ∀ scope, r.scope = some scope → ∀ c, scope.cutoff = some c →
    c.firstSegment < r.chain.segments.size

/-- What is on record stays on record. -/
structure Later (r r' : Root) : Prop where
  history : history r.chain <+: history r'.chain
  scope : ∀ scope, r.scope = some scope → ∃ scope', r'.scope = some scope'
    ∧ scope.revision ≤ scope'.revision ∧ (∀ key ∈ scope.received, key ∈ scope'.received)
    ∧ ∀ hash ∈ scope.receivedBlobs, hash ∈ scope'.receivedBlobs
  fence : ∀ f, r.revision = some f → ∃ f', r'.revision = some f' ∧ f ≤ f'

variable {r r' r'' : Root} {kind : Kind} {allowed : Kind → Prop}

omit [ScopeJson] [ContentSchema Op] in
lemma Later.refl (r : Root) : Later r r :=
  ⟨List.prefix_rfl, fun scope h => ⟨scope, h, le_rfl, fun _ h => h, fun _ h => h⟩,
    fun f h => ⟨f, h, le_rfl⟩⟩

omit [ScopeJson] [ContentSchema Op] in
lemma Later.same (hchain : r'.chain = r.chain) (hscope : r'.scope = r.scope)
    (hrevision : r'.revision = r.revision) : Later r r' := by
  have h := Later.refl r
  refine ⟨by rw [hchain], ?_, ?_⟩
  · rw [hscope]
    exact h.scope
  · rw [hrevision]
    exact h.fence

omit [ScopeJson] [ContentSchema Op] in
lemma Later.trans (h : Later r r') (h' : Later r' r'') : Later r r'' := by
  refine ⟨h.history.trans h'.history, ?_, ?_⟩
  · intro scope hscope
    obtain ⟨scope', hscope', hrevision, hreceived, hblobs⟩ := h.scope scope hscope
    obtain ⟨scope'', hscope'', hrevision', hreceived', hblobs'⟩ := h'.scope scope' hscope'
    exact ⟨scope'', hscope'', hrevision.trans hrevision',
      fun key hkey => hreceived' key (hreceived key hkey),
      fun hash hhash => hblobs' hash (hblobs hash hhash)⟩
  · intro f hf
    obtain ⟨f', hf', hle⟩ := h.fence f hf
    obtain ⟨f'', hf'', hle'⟩ := h'.fence f' hf'
    exact ⟨f'', hf'', hle.trans hle'⟩

omit [ScopeJson] [ContentSchema Op] in
lemma prefix_of_wrote {d d' : Directory} {added : List Bytes} (h : Wrote d d' added) :
    history d <+: history d' := by
  obtain ⟨new, hnew, -⟩ := h.history
  rw [hnew]
  exact List.prefix_append _ _

omit [ScopeJson] [ContentSchema Op] in
lemma logKeys_of_prefix {d d' : Directory} (h : history d <+: history d') {key : RecordKey}
    (hkey : key ∈ logKeys d) : key ∈ logKeys d' := by
  obtain ⟨r, hr, rfl⟩ := List.mem_map.mp hkey
  exact List.mem_map_of_mem (h.subset hr)

omit [ScopeJson] [ContentSchema Op] in
/-- Writing to the log keeps the files consistent. -/
lemma Consistent.wrote (h : Consistent r) {d : Directory} {added : List Bytes}
    (hwrote : Wrote r.chain d added) : Consistent { r with chain := d } := by
  refine ⟨?_, h.fenced, ?_⟩
  · intro scope hscope key hkey
    exact logKeys_of_prefix (prefix_of_wrote hwrote) (h.retains scope hscope key hkey)
  · intro scope hscope c hc
    exact lt_of_lt_of_le (h.cutoff scope hscope c hc) hwrote.size

omit [ScopeJson] [ContentSchema Op] in
lemma Later.wrote {d : Directory} {added : List Bytes} (hwrote : Wrote r.chain d added) :
    Later r { r with chain := d } :=
  ⟨prefix_of_wrote hwrote, (Later.refl r).scope, (Later.refl r).fence⟩

omit [ScopeJson] [ContentSchema Op] in
/-- What a receipt does to the ledger of consistent files. -/
lemma Consistent.ledger (h : Consistent r) {scope : Scope} {known : Corpus}
    (hscope : r.scope = some scope) (hknown : Shows (history r.chain) known)
    (records : List (RecordKey × Bytes)) :
    Receipt.Ledger known scope records (Receipt.takeAll known scope records) := by
  apply Receipt.ledger_takeAll
  intro key hkey
  rw [mem_known hknown]
  exact h.retains scope hscope key hkey

omit [ScopeJson] [ContentSchema Op] in
/-- Another scope of the same revision and cutoff, with no more exclusions. -/
lemma Consistent.rescoped (h : Consistent r) {scope scope' : Scope} (hscope : r.scope = some scope)
    (hrevision : scope'.revision = scope.revision) (hcutoff : scope'.cutoff = scope.cutoff)
    (hexcluded : ∀ key ∈ scope'.excluded, key ∈ scope.excluded) :
    Consistent { r with scope := some scope' } := by
  refine ⟨?_, ⟨fun hnone => (by cases hnone), ?_⟩, ?_⟩
  · rintro s hs key hkey
    cases hs
    exact h.retains scope hscope key (hexcluded key hkey)
  · rintro s hs
    cases hs
    rw [hrevision]
    exact h.fenced.2 scope hscope
  · rintro s hs c hc
    cases hs
    rw [hcutoff] at hc
    exact h.cutoff scope hscope c hc

omit [ScopeJson] [ContentSchema Op] in
lemma Later.rescoped {scope scope' : Scope} (hscope : r.scope = some scope)
    (hrevision : scope.revision ≤ scope'.revision)
    (hreceived : ∀ key ∈ scope.received, key ∈ scope'.received)
    (hblobs : ∀ hash ∈ scope.receivedBlobs, hash ∈ scope'.receivedBlobs) :
    Later r { r with scope := some scope' } := by
  refine ⟨List.prefix_rfl, ?_, (Later.refl r).fence⟩
  intro s hs
  rw [hscope] at hs
  cases hs
  exact ⟨scope', rfl, hrevision, hreceived, hblobs⟩

omit [ScopeJson] [ContentSchema Op] in
/-- Every durable step keeps the files consistent, and what was on record stays there. -/
lemma Step.preserves (h : Consistent r) (hstep : Step kind r r') : Consistent r' ∧ Later r r' := by
  cases hstep with
  | script io => exact ⟨⟨h.retains, h.fenced, h.cutoff⟩, .same rfl rfl rfl⟩
  | chain hwrote => exact ⟨h.wrote hwrote, .wrote hwrote⟩
  | append hwrote => exact ⟨h.wrote hwrote, .wrote hwrote⟩
  | content bytes hfresh => exact ⟨⟨h.retains, h.fenced, h.cutoff⟩, .same rfl rfl rfl⟩
  | @bind _ scope hnone hscope =>
    refine ⟨⟨?_, ⟨fun hcontra => (by cases hcontra), ?_⟩, ?_⟩, ⟨List.prefix_rfl, ?_, (Later.refl r).fence⟩⟩
    · rintro s hs
      cases hs
      exact hscope.excluded
    · rintro s hs
      cases hs
      exact .inl (.inr ⟨h.fenced.1 hnone, hscope.revision⟩)
    · rintro s hs c hc
      cases hs
      rw [hscope.cutoff] at hc
      cases hc
    · intro s hs
      rw [hnone] at hs
      cases hs
  | ledger hscope hfence hknown records =>
    have hledger := h.ledger hscope hknown records
    refine ⟨h.rescoped hscope hledger.revision hledger.cutoff hledger.excluded, ?_⟩
    apply Later.rescoped hscope (by rw [hledger.revision]) hledger.received
    intro hash hhash
    rwa [hledger.receivedBlobs]
  | receive hscope hfence hwrote hreceived => exact ⟨h.wrote hwrote, .wrote hwrote⟩
  | blob hscope hfence bytes hfresh => exact ⟨⟨h.retains, h.fenced, h.cutoff⟩, .same rfl rfl rfl⟩
  | receivedBlob hscope hfence hash =>
    refine ⟨h.rescoped hscope rfl rfl fun _ hkey => hkey, ?_⟩
    exact Later.rescoped hscope le_rfl (fun _ hkey => hkey)
      fun _ hhash => ExtTreeSet.mem_insert.mpr (.inr hhash)
  | @fence _ scope hscope =>
    refine ⟨⟨h.retains, ⟨?_, ?_⟩, h.cutoff⟩, ⟨List.prefix_rfl, (Later.refl r).scope, ?_⟩⟩
    · intro hnone
      rw [show r.scope = none from hnone] at hscope
      cases hscope
    · intro s hs
      rw [show r.scope = some s from hs] at hscope
      cases hscope
      exact .inr rfl
    · intro f hf
      refine ⟨scope.revision + 1, rfl, ?_⟩
      rcases h.fenced.2 scope hscope with (hmatch | ⟨hmatch, -⟩) | hmatch
      · rw [hf] at hmatch
        cases hmatch
        omega
      · rw [hf] at hmatch
        cases hmatch
      · rw [hf] at hmatch
        cases hmatch
        omega
  | @select _ scope selected backfill segment hscope hfence hselected hcutoff =>
    obtain ⟨now, rfl⟩ := hselected
    refine ⟨⟨?_, ⟨fun hcontra => (by cases hcontra), ?_⟩, ?_⟩, ?_⟩
    · rintro s hs key hkey
      cases hs
      exact absurd hkey ExtTreeSet.not_mem_empty
    · rintro s hs
      cases hs
      exact .inl (.inl hfence)
    · rintro s hs c hc
      cases hs
      cases backfill with
      | true =>
        rw [show segment = none from hcutoff] at hc
        cases hc
      | false =>
        obtain ⟨n, rfl, hcuts⟩ := hcutoff
        cases hc
        have hlast := hcuts.last
        show n < r.chain.segments.size
        omega
    · exact Later.rescoped hscope (Nat.le_succ _) (fun _ h => h) (fun _ h => h)

omit [ScopeJson] [ContentSchema Op] in
/-- Files only grow along a path. -/
lemma Path.grows (hpath : Path allowed r r') : r.chain.Grows r'.chain := by
  induction hpath with
  | refl => exact .of_segments rfl
  | tail _ hstep ih =>
    obtain ⟨kind, -, hstep⟩ := hstep
    cases hstep with
    | chain hwrote => exact ih.trans hwrote.grows
    | append hwrote => exact ih.trans hwrote.grows
    | receive hscope hfence hwrote hreceived => exact ih.trans hwrote.grows
    | _ => exact ih

omit [ScopeJson] [ContentSchema Op] in
lemma Path.preserves (h : Consistent r) (hpath : Path allowed r r') :
    Consistent r' ∧ Later r r' := by
  induction hpath with
  | refl => exact ⟨h, .refl r⟩
  | tail _ hstep ih =>
    obtain ⟨kind, -, hstep⟩ := hstep
    obtain ⟨hconsistent, hlater⟩ := hstep.preserves ih.1
    exact ⟨hconsistent, ih.2.trans hlater⟩

/-! ## Calls -/

/-- The kinds of steps that confirm content, unless the snapshot is of another revision. -/
def Confirming (revision : ℕ) (snapshot : Snapshot) (hash : Digest) (kind : Kind) : Prop :=
  Publishing revision hash kind ∧ snapshot.scopeRevision = revision

/-- The kinds of steps that a call may take. -/
def Taking (revision : ℕ) : Request → Kind → Prop
  | .ingestRecords _ => Ingesting revision none
  | .ingestInto _ snapshot => Ingesting revision (some snapshot)
  | .ingestBlob _ hash _ => Publishing revision hash
  | .confirmBlob snapshot _ hash => Confirming revision snapshot hash
  | .setSharingScope backfill => Selecting backfill
  | _ => Idle

/-- What a call leads to, whether or not it succeeds. -/
structure Called (request : Request) (w w' : Workspace) : Prop where
  path : Path (Taking w.replica.scopeRevision request) w.root w'.root
  sound : Sound w'
  revision : w'.replica.scopeRevision = w.replica.scopeRevision
    ∨ ∃ scope, w'.root.scope = some scope ∧ w'.replica.scopeRevision = scope.revision

/-- What a call that succeeds shows of the state it was made in. -/
structure Answered (request : Request) (w : Workspace) (answer : Answer) (w' : Workspace) : Prop
    extends Called request w w' where
  /-- The scope has not changed since the replica last looked. -/
  live : request.selects = none → w.root.Matches w.replica.scopeRevision
    ∧ ∀ snapshot, request.given = some snapshot → snapshot.scopeRevision = w.replica.scopeRevision
  exported : request = .snapshot → ∃ snapshot, answer = .snapshot snapshot ∧ Frozen false snapshot w'
  placed : request.supplied ≠ [] → ∃ scope, w'.root.scope = some scope
    ∧ ∀ r ∈ request.supplied, r.1 ∈ scope.received ∨ Exportable w.root r.1
  selected : ∀ backfill, request = .setSharingScope backfill →
    ∃ selected, Chose backfill w selected w' ∧ answer = .scope selected.summary
      ∧ w'.replica.scopeRevision = selected.revision

variable {w : Workspace}

omit [ScopeJson] [ContentSchema Op] in
lemma Rests.called {request : Request} {w' : Workspace} (h : Rests allowed w w')
    (hkinds : ∀ kind, allowed kind → Taking w.replica.scopeRevision request kind) :
    Called request w w' :=
  ⟨h.path.mono hkinds, ⟨h.holds, h.unlocked, h.follows⟩, .inl h.revision⟩

omit [ScopeJson] [ContentSchema Op] in
lemma Calm.called {request : Request} {w' : Workspace} (h : Calm w w') (hw : Sound w) :
    Called request w w' := by
  have hrests : Rests Idle w w' := hw.rests h
  exact hrests.called fun _ hnone => hnone.elim

omit [ScopeJson] [ContentSchema Op] in
/-- A call that neither freezes, receives nor selects. -/
lemma Called.answered {request : Request} {answer : Answer} {w' : Workspace}
    (h : Called request w w') (hmatches : w.root.Matches w.replica.scopeRevision)
    (hgiven : ∀ snapshot, request.given = some snapshot →
      snapshot.scopeRevision = w.replica.scopeRevision)
    (hsnapshot : request ≠ .snapshot) (hsupplied : request.supplied = [])
    (hselects : request.selects = none) : Answered request w answer w' := by
  refine ⟨h, fun _ => ⟨hmatches, hgiven⟩, fun hcontra => absurd hcontra hsnapshot,
    fun hcontra => absurd hsupplied hcontra, ?_⟩
  rintro backfill rfl
  cases hselects

omit [Blake3] [Checksum] [ScopeJson] [ContentSchema Op] in
lemma InForce.matches {scope : Scope} (h : InForce w scope) :
    w.root.Matches w.replica.scopeRevision := by
  rw [← h.revision]
  exact h.fence

omit [ScopeJson] [ContentSchema Op] in
/-- A frozen snapshot was taken in a live state. -/
lemma Frozen.live {receiving : Bool} {snapshot : Snapshot} {w' : Workspace}
    (h : Frozen receiving snapshot w') (hrests : Rests Idle w w') :
    w.root.Matches w.replica.scopeRevision := by
  obtain ⟨scope, -, hforce, -⟩ := h.shared
  have hmatches := hforce.matches
  unfold Root.Matches at hmatches ⊢
  rwa [hrests.path.idle.2.1, hrests.revision] at hmatches

omit [ScopeJson] in
lemma wp_blobChunk (snapshot : Snapshot) (key : RecordKey) (hash : Digest) (offset : ℕ) :
    wp (blobChunk snapshot key hash offset)
      (fun _ w' => Calm w w' ∧ w.root.Matches w.replica.scopeRevision
        ∧ snapshot.scopeRevision = w.replica.scopeRevision)
      (fun _ w' => Calm w w') w := by
  unfold blobChunk
  rw [wp_bind]
  apply wp_mono (wp_readBlob snapshot key hash)
  swap
  · exact fun _ _ h => h
  rintro result w' ⟨hcalm, hmatches, hrevision, -⟩
  cases result with
  | none => exact ⟨hcalm, hmatches, hrevision⟩
  | some bytes =>
    simp only [wp_guard, wp_pure]
    exact ⟨fun _ => hcalm, fun _ => ⟨fun _ => hcalm, fun _ => ⟨hcalm, hmatches, hrevision⟩⟩⟩

lemma wp_confirmBlob (hw : Sound w) (snapshot : Snapshot) (key : RecordKey) (hash : Digest) :
    wp (ReplicationStorage.confirmBlob snapshot key hash)
      (fun _ w' => Rests (Confirming w.replica.scopeRevision snapshot hash) w w'
        ∧ w.root.Matches w.replica.scopeRevision
        ∧ snapshot.scopeRevision = w.replica.scopeRevision
        ∧ ((∃ bytes, Opens snapshot key hash bytes w.root) ∨ Calm w w'))
      (fun _ w' => Rests (Confirming w.replica.scopeRevision snapshot hash) w w'
        ∧ ((∃ bytes, Opens snapshot key hash bytes w.root) ∨ Calm w w')) w := by
  show wp (readBlob snapshot key hash >>= fun result => _) _ _ w
  rw [wp_bind]
  apply wp_mono (wp_readBlob snapshot key hash)
  swap
  · exact fun _ _ hcalm => ⟨hw.rests hcalm, .inr hcalm⟩
  rintro result w₁ ⟨hcalm, hmatches, hrevision, hopens⟩
  cases result with
  | none => exact ⟨hw.rests hcalm, hmatches, hrevision, .inr hcalm⟩
  | some bytes =>
    show wp (ingestBlob key hash bytes >>= fun _ => pure true) _ _ w₁
    rw [wp_bind]
    have hingest := wp_ingestBlob (hw.calm hcalm) key hash bytes
    rw [hcalm.revision] at hingest
    have hconfirm : ∀ w', Rests (Publishing w.replica.scopeRevision hash) w₁ w' →
        Rests (Confirming w.replica.scopeRevision snapshot hash) w w' := by
      intro w' hrests
      have hfrom := hrests.of_calm hcalm
      exact ⟨⟨hfrom.path.mono fun _ hkind => ⟨hkind, hrevision⟩, hfrom.space, hfrom.revision,
        hfrom.follows⟩, hfrom.holds, hfrom.unlocked⟩
    apply wp_mono hingest
    · rintro _ w' ⟨hrests, -⟩
      exact ⟨hconfirm w' hrests, hmatches, hrevision, .inl ⟨bytes, hopens bytes rfl⟩⟩
    · rintro _ w' ⟨hrests, -⟩
      exact ⟨hconfirm w' hrests, .inl ⟨bytes, hopens bytes rfl⟩⟩

/-- What every call does and returns. -/
lemma wp_code (hw : Sound w) (hretains : Retains w.root) (request : Request) :
    wp request.code (fun answer w' => Answered request w answer w')
      (fun _ w' => Called request w w') w := by
  have hsame : ∀ {allowed : Kind → Prop} (kind : Kind), allowed kind → allowed kind :=
    fun _ h => h
  unfold Request.code
  cases request with
  | snapshot =>
    simp only [wp_bind, wp_pure]
    apply wp_mono (wp_snapshotFor hw false)
    · rintro snapshot w' ⟨hrests, hfrozen⟩
      refine ⟨hrests.called hsame, fun _ => ⟨hfrozen.live hrests, ?_⟩, fun _ => ⟨_, rfl, hfrozen⟩,
        fun hnone => absurd rfl hnone, ?_⟩
      · exact fun _ hnone => (by cases hnone)
      · exact fun _ hnone => (by cases hnone)
    · exact fun _ _ hrests => hrests.called hsame
  | receivingSnapshot =>
    simp only [wp_bind, wp_pure]
    apply wp_mono (wp_snapshotFor hw true)
    · rintro snapshot w' ⟨hrests, hfrozen⟩
      refine (hrests.called hsame).answered (hfrozen.live hrests) ?_ ?_ rfl rfl
      · exact fun _ hnone => (by cases hnone)
      · exact fun hnone => (by cases hnone)
    · exact fun _ _ hrests => hrests.called hsame
  | ingestRecords records =>
    unfold ingestRecords
    simp only [wp_bind, wp_pure]
    apply wp_mono (wp_ingestInto hw hretains records none)
    · rintro result w' ⟨hrests, hreceipted⟩
      obtain ⟨scope, hforce⟩ := hreceipted.force
      refine ⟨hrests.called hsame, fun _ => ⟨hforce.matches, ?_⟩, ?_, fun _ => hreceipted.final,
        ?_⟩
      · exact fun _ hnone => (by cases hnone)
      · exact fun hnone => (by cases hnone)
      · exact fun _ hnone => (by cases hnone)
    · exact fun _ _ hrests => hrests.called hsame
  | ingestInto records snapshot =>
    simp only [wp_bind, wp_pure]
    apply wp_mono (wp_ingestInto hw hretains records (some snapshot))
    · rintro result w' ⟨hrests, hreceipted⟩
      obtain ⟨scope, hforce⟩ := hreceipted.force
      refine ⟨hrests.called hsame, fun _ => ⟨hforce.matches, hreceipted.revision⟩, ?_,
        fun _ => hreceipted.final, ?_⟩
      · exact fun hnone => (by cases hnone)
      · exact fun _ hnone => (by cases hnone)
    · exact fun _ _ hrests => hrests.called hsame
  | blobHashes snapshot key =>
    simp only [wp_bind, wp_pure]
    apply wp_mono (wp_blobHashes snapshot key)
    · rintro hashes w' ⟨hcalm, hmatches, hrevision⟩
      refine (hcalm.called hw).answered hmatches ?_ (fun hnone => (by cases hnone)) rfl rfl
      rintro s hs
      cases hs
      exact hrevision
    · exact fun _ _ hcalm => hcalm.called hw
  | readBlob snapshot key hash =>
    simp only [wp_bind, wp_pure]
    apply wp_mono (wp_readBlob snapshot key hash)
    · rintro bytes w' ⟨hcalm, hmatches, hrevision, -⟩
      refine (hcalm.called hw).answered hmatches ?_ (fun hnone => (by cases hnone)) rfl rfl
      rintro s hs
      cases hs
      exact hrevision
    · exact fun _ _ hcalm => hcalm.called hw
  | blobChunk snapshot key hash offset =>
    simp only [wp_bind, wp_pure]
    apply wp_mono (wp_blobChunk snapshot key hash offset)
    · rintro chunk w' ⟨hcalm, hmatches, hrevision⟩
      refine (hcalm.called hw).answered hmatches ?_ (fun hnone => (by cases hnone)) rfl rfl
      rintro s hs
      cases hs
      exact hrevision
    · exact fun _ _ hcalm => hcalm.called hw
  | ingestBlob key hash bytes =>
    simp only [wp_bind, wp_pure]
    apply wp_mono (wp_ingestBlob hw key hash bytes)
    · rintro _ w' ⟨hrests, -, ⟨scope, hforce⟩, -⟩
      refine (hrests.called hsame).answered hforce.matches ?_ ?_ rfl rfl
      · exact fun _ hnone => (by cases hnone)
      · exact fun hnone => (by cases hnone)
    · rintro _ w' ⟨hrests, -⟩
      exact hrests.called hsame
  | confirmBlob snapshot key hash =>
    simp only [wp_bind, wp_pure]
    apply wp_mono (wp_confirmBlob hw snapshot key hash)
    · rintro result w' ⟨hrests, hmatches, hrevision, -⟩
      refine (hrests.called hsame).answered hmatches ?_ (fun hnone => (by cases hnone)) rfl rfl
      rintro s hs
      cases hs
      exact hrevision
    · rintro _ w' ⟨hrests, -⟩
      exact hrests.called hsame
  | setSharingScope backfill =>
    simp only [wp_bind, wp_pure]
    apply wp_mono (wp_setSharingScope hw backfill)
    · rintro summary w' ⟨hpath, hsound, -, selected, hchose, rfl, hrevision⟩
      refine ⟨⟨hpath, hsound, .inr ⟨selected, hchose.file, hrevision⟩⟩, ?_, ?_, ?_, ?_⟩
      · exact fun hnone => (by cases hnone)
      · exact fun hnone => (by cases hnone)
      · exact fun hnone => absurd rfl hnone
      · rintro b hb
        cases hb
        exact ⟨selected, hchose, rfl, hrevision⟩
    · exact fun _ _ hrests => hrests.called hsame

end Replica

/-! ## Runs -/

namespace World

open Replica

/-- The keys of the decodable records in the log. -/
def log (w : World) : List RecordKey := logKeys w.root.chain

/-- What holds of a device between calls. -/
structure Sane (w : World) : Prop where
  holds : ∃ shapes, Holds w.root.chain shapes
  unlocked : w.root.chain.lock ≠ .held
  consistent : Consistent w.root
  follows : ∀ replica ∈ w.replicas, replica.evidence.Follows w.root.chain
  revisions : ∀ replica ∈ w.replicas, ∃ scope, w.root.scope = some scope
    ∧ replica.scopeRevision ≤ scope.revision

/-- The kinds of steps of the device itself. -/
def Owning (kind : Kind) : Prop := kind = .own

/-- The kinds of steps that something may take. -/
def kinds (w : World) : Happening → Kind → Prop
  | .script _ => Idle
  | .capture _ | .write _ => Owning
  | .openSpace _ _ => Binding
  | .call i request =>
    match w.replicas[i]? with
    | none => Idle
    | some replica => Taking replica.scopeRevision request

variable {w : World}

omit [ScopeJson] [ContentSchema Op] in
lemma Sane.workspace (h : Sane w) {i : ℕ} {replica : Replica}
    (hi : w.replicas[i]? = some replica) : Sound ⟨w.root, replica⟩ :=
  ⟨h.holds, h.unlocked, h.follows replica (List.mem_of_getElem? hi)⟩

omit [ScopeJson] [ContentSchema Op] in
/-- A writer that comes and goes only appends. -/
lemma captured_wrote {d : Directory} {shapes : List Shape} (h : Holds d shapes)
    (hlock : d.lock ≠ .held) (calls : List Store.Call) :
    (∃ shapes', Holds (captured calls d) shapes') ∧ (captured calls d).lock ≠ .held
      ∧ ∃ added, Wrote d (captured calls d) added := by
  unfold captured
  cases hrun : Chain.run calls ⟨d, none⟩ with
  | none => exact ⟨⟨shapes, h⟩, hlock, [], wrote_of_segments rfl⟩
  | some result =>
    obtain ⟨events, c⟩ := result
    have hsound : Chain.Sound ⟨d, none⟩ shapes := ⟨h, hlock⟩
    obtain ⟨shapes', parts, hsound', hextends, -⟩ := Chain.run_sound hsound hrun
    have hholds := hsound'.holds
    have hfree : Holds { c.directory with lock := .free } shapes' :=
      ⟨hholds.segments, hholds.valid, hholds.bounded, hholds.marker, hholds.named, hholds.settled⟩
    have hlater : SegmentStore.Extends d { c.directory with lock := .free } shapes shapes'
        parts.flatten := ⟨hextends.grows.trans (.of_segments rfl), hextends.records⟩
    exact ⟨⟨shapes', hfree⟩, fun hheld => (by cases hheld), _, wrote_of_extends h hfree hlater⟩

omit [ScopeJson] [ContentSchema Op] in
/-- A path keeps what is known of replicas that are not used. -/
lemma Sane.others {root : Root} {allowed : Kind → Prop} (h : Sane w)
    (hpath : Path allowed w.root root) (hgrows : w.root.chain.Grows root.chain)
    {replica : Replica} (hreplica : replica ∈ w.replicas) :
    replica.evidence.Follows root.chain ∧ ∃ scope, root.scope = some scope
      ∧ replica.scopeRevision ≤ scope.revision := by
  refine ⟨(h.follows replica hreplica).grows hgrows, ?_⟩
  obtain ⟨scope, hscope, hle⟩ := h.revisions replica hreplica
  obtain ⟨scope', hscope', hle', -⟩ := (hpath.preserves h.consistent).2.scope scope hscope
  exact ⟨scope', hscope', hle.trans hle'⟩

omit [ScopeJson] [ContentSchema Op] in
/-- Only the files changed. -/
lemma Sane.moved {root : Root} {allowed : Kind → Prop} (h : Sane w)
    (hpath : Path allowed w.root root) (hholds : ∃ shapes, Holds root.chain shapes)
    (hlock : root.chain.lock ≠ .held) : Sane { w with root := root } :=
  ⟨hholds, hlock, (hpath.preserves h.consistent).1,
    fun _ hreplica => (h.others hpath hpath.grows hreplica).1,
    fun _ hreplica => (h.others hpath hpath.grows hreplica).2⟩

/-- Whatever happens, a device stays sane, and only the steps of that kind are taken. -/
lemma Sane.next (h : Sane w) (happening : Happening) :
    Sane (w.next happening) ∧ Path (w.kinds happening) w.root (w.next happening).root := by
  obtain ⟨shapes, hshapes⟩ := h.holds
  cases happening with
  | script io =>
    have hpath : Path Idle w.root { w.root with io := io } := (Replica.Path.refl _).keep (.script _ io)
    exact ⟨h.moved hpath h.holds h.unlocked, hpath⟩
  | capture calls =>
    obtain ⟨hholds, hlock, added, hwrote⟩ := captured_wrote hshapes h.unlocked calls
    have hpath : Path Owning w.root
        { w.root with chain := captured calls w.root.chain } :=
      (Replica.Path.refl _).step rfl (.append hwrote)
    exact ⟨h.moved hpath hholds hlock, hpath⟩
  | write bytes =>
    have hkeeps : Keeps w.root bytes ((Root.writeBlob bytes).exec w.root).2 := by
      have hwrite := wp_writeBlob (r := w.root) bytes
      unfold wp at hwrite
      cases hexec : (Root.writeBlob bytes).exec w.root with
      | mk result root =>
        rw [hexec] at hwrite
        cases result with
        | ok u => exact hwrite
        | error e => exact hwrite
    show Sane { w with root := ((Root.writeBlob bytes).exec w.root).2 } ∧ _
    have hpath : Path Owning w.root ((Root.writeBlob bytes).exec w.root).2 := by
      rcases hkeeps with hquiet | ⟨hfresh, hquiet⟩
      · exact (Replica.Path.refl _).quiet hquiet
      · have hown : Owning .own := rfl
        exact ((Replica.Path.refl _).step hown (.content _ bytes hfresh)).quiet hquiet
    have hchain : ((Root.writeBlob bytes).exec w.root).2.chain = w.root.chain := by
      rcases hkeeps with hquiet | ⟨-, hquiet⟩
      · rw [hquiet]
      · rw [hquiet]
    refine ⟨h.moved hpath ?_ ?_, hpath⟩
    · rw [hchain]
      exact h.holds
    · rw [hchain]
      exact h.unlocked
  | openSpace space backfill =>
    have hopen := wp_openSpace hshapes h.unlocked space backfill
    unfold wp at hopen
    cases hexec : (Replica.openSpace space backfill).exec w.root with
    | mk result root =>
      rw [hexec] at hopen
      cases result with
      | error e =>
        simp only [World.next, hexec]
        obtain ⟨hpath, hholds, hlock⟩ := hopen
        exact ⟨h.moved hpath hholds hlock, hpath⟩
      | ok replica =>
        simp only [World.next, hexec]
        obtain ⟨hpath, hsound, scope, hscope, hrevision⟩ := hopen
        refine ⟨⟨hsound.holds, hsound.unlocked, (hpath.preserves h.consistent).1, ?_, ?_⟩, hpath⟩
        · intro other hother
          rcases List.mem_append.mp hother with hold | hnew
          · exact (h.others hpath hpath.grows hold).1
          · rw [List.mem_singleton.mp hnew]
            exact hsound.follows
        · intro other hother
          rcases List.mem_append.mp hother with hold | hnew
          · exact (h.others hpath hpath.grows hold).2
          · rw [List.mem_singleton.mp hnew]
            exact ⟨scope, hscope, hrevision.le⟩
  | call i request =>
    cases hi : w.replicas[i]? with
    | none =>
      simp only [World.next, hi]
      exact ⟨h, .refl _⟩
    | some replica =>
      simp only [World.next, kinds, hi]
      have hcalled : Called request ⟨w.root, replica⟩ (request.code.exec ⟨w.root, replica⟩).2 := by
        have hcode := wp_code (h.workspace hi) h.consistent.retains request
        unfold wp at hcode
        cases hexec : request.code.exec ⟨w.root, replica⟩ with
        | mk result w' =>
          rw [hexec] at hcode
          cases result with
          | ok answer => exact hcode.toCalled
          | error e => exact hcode
      set w' := (request.code.exec ⟨w.root, replica⟩).2
      have hpath := hcalled.path
      refine ⟨⟨hcalled.sound.holds, hcalled.sound.unlocked, (hpath.preserves h.consistent).1,
        ?_, ?_⟩, hpath⟩
      · intro other hother
        rcases List.mem_or_eq_of_mem_set hother with hold | rfl
        · exact (h.others hpath hpath.grows hold).1
        · exact hcalled.sound.follows
      · intro other hother
        rcases List.mem_or_eq_of_mem_set hother with hold | rfl
        · exact (h.others hpath hpath.grows hold).2
        · rcases hcalled.revision with hsame | ⟨scope, hscope, heq⟩
          · obtain ⟨scope, hscope, hle⟩ :=
              (h.others hpath hpath.grows (List.mem_of_getElem? hi)).2
            exact ⟨scope, hscope, by rw [hsame]; exact hle⟩
          · exact ⟨scope, hscope, heq.le⟩

omit [ScopeJson] [ContentSchema Op] in
lemma sane_empty : Sane empty := by
  have hholds : Holds Directory.empty [] := Chain.empty_sound.holds
  refine ⟨⟨[], hholds⟩, fun hheld => (by cases hheld), ⟨?_, ⟨fun _ => rfl, ?_⟩, ?_⟩, ?_, ?_⟩
  · intro scope hscope
    cases hscope
  · intro scope hscope
    cases hscope
  · intro scope hscope
    cases hscope
  · intro replica hreplica
    cases hreplica
  · intro replica hreplica
    cases hreplica

/-- Every device that can be reached is sane. -/
lemma sane_run (happenings : List Happening) : Sane (run happenings) := by
  induction happenings using List.reverseRecOn with
  | nil => exact sane_empty
  | append_singleton happenings happening ih =>
    unfold run at ih ⊢
    rw [List.foldl_append]
    exact (ih.next happening).1

lemma run_append (happenings : List Happening) (happening : Happening) :
    run (happenings ++ [happening]) = (run happenings).next happening := by
  unfold run
  rw [List.foldl_append]
  rfl

/-- What is on record stays on record in every run. -/
lemma later_run (before after : List Happening) :
    Later (run before).root (run (before ++ after)).root := by
  induction after using List.reverseRecOn with
  | nil =>
    rw [List.append_nil]
    exact .refl _
  | append_singleton after happening ih =>
    rw [← List.append_assoc, run_append]
    have hnext := (sane_run (before ++ after)).next happening
    exact ih.trans (hnext.2.preserves (sane_run (before ++ after)).consistent).2

end World
end EditChain.Sync
