import EditChain.Sync.ReplicaTheorems
import EditChain.Sync.StorageTheorems

/-!
# What the calls of a replica return

Each call of a replica takes durable steps of its own kinds only, and what it returns is read off
the scope in force and the history of the chain.
-/

namespace EditChain.Sync

open Core Fallible Store
open Std (ExtTreeMap ExtTreeSet)

variable {Op : Type} [Schema Op] [Blake3] [Checksum] [ScopeJson]

namespace Replica

variable {w : Workspace} {allowed : Kind → Prop}

/-! ## Calls that write nothing -/

/-- No durable step at all. -/
def Idle (_ : Kind) : Prop := False

omit [ScopeJson] in
/-- Without durable steps the files stay as they are. -/
lemma Path.idle {r r' : Root} (h : Path Idle r r') :
    r'.scope = r.scope ∧ r'.revision = r.revision ∧ r'.blobs = r.blobs
      ∧ history r'.chain = history r.chain := by
  induction h with
  | refl => exact ⟨rfl, rfl, rfl, rfl⟩
  | tail _ hstep ih =>
    obtain ⟨kind, rfl | hnone, hstep⟩ := hstep
    · cases hstep with
      | script io => exact ih
      | chain hwrote =>
        obtain ⟨hscope, hrevision, hblobs, hhistory⟩ := ih
        exact ⟨hscope, hrevision, hblobs, by rw [← hhistory]; exact hwrote.history_eq⟩
    · exact hnone.elim

omit [ScopeJson] in
lemma Sound.calm {w' : Workspace} (h : Sound w) (hcalm : Calm w w') : Sound w' := by
  refine ⟨?_, ?_, hcalm.follows h.follows⟩
  · rw [hcalm.chain]
    exact h.holds
  · rw [hcalm.chain]
    exact h.unlocked

omit [ScopeJson] in
lemma Sound.rests {w' : Workspace} (h : Sound w) (hcalm : Calm w w') : Rests allowed w w' := by
  have hsound := h.calm hcalm
  exact ⟨⟨(Path.refl _).quiet hcalm.root, hcalm.space, hcalm.revision, hsound.follows⟩,
    hsound.holds, hsound.unlocked⟩

omit [ScopeJson] in
lemma Rests.of_calm {w₁ w' : Workspace} (hcalm : Calm w w₁) (h : Rests allowed w₁ w') :
    Rests allowed w w' := by
  refine ⟨⟨?_, h.space.trans hcalm.space, h.revision.trans hcalm.revision, h.follows⟩, h.holds,
    h.unlocked⟩
  exact Path.trans ((Path.refl _).quiet hcalm.root) h.path

/-! ## Snapshots -/

/-- A snapshot shows what the scope in force shares. -/
structure Frozen (receiving : Bool) (snapshot : Snapshot) (w : Workspace) : Prop where
  shared : ∃ scope known, InForce w scope ∧ Shows (history w.root.chain) known
    ∧ snapshot.received = scope.received ∧ snapshot.receivedBlobs = scope.receivedBlobs
    ∧ snapshot.scopeRevision = scope.revision
    ∧ snapshot.records = known.share fun key record =>
      !scope.excludes key record.segment || (receiving && scope.received.contains key)

omit [ScopeJson] in
lemma Frozen.withChain {receiving : Bool} {snapshot : Snapshot} {d : Directory}
    (h : Frozen receiving snapshot w) (hsegments : d.segments = w.root.chain.segments) :
    Frozen receiving snapshot (withChain d w) := by
  obtain ⟨scope, known, hforce, hshows, hrest⟩ := h.shared
  refine ⟨scope, known, ⟨hforce.file, hforce.fence, hforce.revision, hforce.space⟩, ?_, hrest⟩
  show Shows (history d) known
  rw [(wrote_of_segments hsegments).history_eq]
  exact hshows

omit [ScopeJson] in
/-- The records of a snapshot, with their bytes. -/
lemma Frozen.record_iff {receiving : Bool} {snapshot : Snapshot}
    (h : Frozen receiving snapshot w) {key : RecordKey} {bytes : Bytes} :
    snapshot.record key = some bytes ↔
      ∃ scope record, w.root.scope = some scope ∧ firstOf (history w.root.chain) key = some record
        ∧ record.bytes = bytes
        ∧ (scope.excludes key record.segment = false ∨ receiving ∧ key ∈ scope.received) := by
  obtain ⟨scope, known, hforce, hshows, -, -, -, hrecords⟩ := h.shared
  unfold Snapshot.record
  rw [hrecords]
  unfold Corpus.share
  rw [ExtTreeMap.getElem?_filterMap', hshows.first key]
  constructor
  · intro hsome
    obtain ⟨record, hfirst, hif⟩ := Option.bind_eq_some_iff.mp hsome
    split at hif
    · next hpermits =>
      refine ⟨scope, record, hforce.file, hfirst, Option.some.inj hif, ?_⟩
      simpa using hpermits.1
    · cases hif
  · rintro ⟨s, record, hs, hfirst, rfl, hpermits⟩
    rw [hforce.file] at hs
    cases hs
    have hshared : (!scope.excludes key record.segment
        || receiving && scope.received.contains key) = true := by
      simpa using hpermits
    rw [hfirst, Option.bind_some, if_pos ⟨hshared, fromEncoded_of_firstOf hfirst⟩]

lemma wp_freeze (hchain : w.root.chain.Readable w.root.chain.segments.size)
    (hfollows : w.replica.evidence.Follows w.root.chain) (receiving : Bool) :
    wp (freeze receiving) (fun snapshot w' => Calm w w' ∧ Frozen receiving snapshot w')
      (fun _ w' => Calm w w') w := by
  unfold freeze
  rw [wp_bind]
  apply wp_mono wp_syncAll
  swap
  · exact fun _ _ h => h
  intro _ w₁ hcalm₁
  rw [wp_bind]
  apply wp_mono wp_loadScope
  swap
  · intro _ w₂ hcalm₂
    exact hcalm₁.trans hcalm₂
  rintro scope w₂ ⟨hcalm₂, hforce⟩
  have hcalm := hcalm₁.trans hcalm₂
  rw [wp_bind]
  have hreadable : w₂.root.chain.Readable w₂.root.chain.segments.size := by
    rw [hcalm.chain]
    exact hchain
  apply wp_mono (wp_readEvidence hreadable (hcalm.follows hfollows))
  swap
  · intro _ w₃ hcalm₃
    exact hcalm.trans hcalm₃
  rintro known w₃ ⟨hcalm₃, hshows⟩
  have hlater := hcalm₂.trans hcalm₃
  refine ⟨hcalm.trans hcalm₃, scope, known, ⟨?_, ?_, ?_, ?_⟩, ?_, rfl, rfl, rfl, rfl⟩
  · rw [hlater.scope]
    exact hforce.file
  · show w₃.root.Matches scope.revision
    unfold Root.Matches
    rw [hlater.fence]
    exact hforce.fence
  · rw [hlater.revision]
    exact hforce.revision
  · rw [hlater.space]
    exact hforce.space
  · rw [hcalm₃.chain]
    exact hshows

lemma wp_snapshotFor (hw : Sound w) (receiving : Bool) :
    wp (snapshotFor receiving)
      (fun snapshot w' => Rests Idle w w' ∧ Frozen receiving snapshot w')
      (fun _ w' => Rests Idle w w') w := by
  obtain ⟨shapes, hshapes⟩ := hw.holds
  unfold snapshotFor
  rw [wp_bind]
  apply wp_mono wp_ensureScope
  swap
  · intro _ w₁ hcalm
    exact hw.rests hcalm
  rintro _ w₁ ⟨hcalm₁, -⟩
  rw [wp_bind]
  have hholds : Holds w₁.root.chain shapes := by
    rw [hcalm₁.chain]
    exact hshapes
  apply wp_mono (wp_warmEvidence (readable_size hholds) (hw.calm hcalm₁).follows)
  swap
  · intro _ w₂ hcalm₂
    exact hw.rests (hcalm₁.trans hcalm₂)
  intro _ w₂ hcalm₂
  have hcalm := hcalm₁.trans hcalm₂
  apply wp_mono (wp_locked (P := Frozen receiving) (hw.calm hcalm) _ _)
  · rintro snapshot w' ⟨hrests, hfrozen⟩
    exact ⟨hrests.of_calm hcalm, hfrozen⟩
  · intro _ w' hrests
    exact hrests.of_calm hcalm
  · intro snapshot w' d hsegments hfrozen
    exact hfrozen.withChain hsegments
  · intro t ht _ _ _
    obtain ⟨shapes', hgood⟩ := ht.good
    apply wp_mono (wp_inside_calm ht (wp_freeze (readable_size hgood.holds) ht.follows receiving))
    · rintro snapshot t' ⟨ht', -, -, hfrozen⟩
      exact ⟨ht', hfrozen⟩
    · exact fun _ _ h => h

/-! ## Records -/

/-- A record that may be offered to a peer. -/
def Exportable (r : Root) (key : RecordKey) : Prop :=
  ∃ scope record, r.scope = some scope ∧ firstOf (history r.chain) key = some record
    ∧ scope.excludes key record.segment = false

/-- The excluded records are in the log. -/
def Retains (r : Root) : Prop :=
  ∀ scope, r.scope = some scope → ∀ key ∈ scope.excluded, key ∈ logKeys r.chain

/-- The kinds of steps of a receipt, unless the snapshot is of another revision. -/
def Ingesting (revision : ℕ) (snapshot : Option Snapshot) (kind : Kind) : Prop :=
  kind = .ingest revision ∧ ∀ s, snapshot = some s → s.scopeRevision = revision

/-- What a receipt leaves behind. -/
structure Receipted (w : Workspace) (records : List (RecordKey × Bytes))
    (snapshot : Option Snapshot) (result : Scope) (w' : Workspace) : Prop where
  force : ∃ scope, InForce w scope
  revision : ∀ s, snapshot = some s → s.scopeRevision = w.replica.scopeRevision
  ledger : ∃ final, w'.root.scope = some final
    ∧ (∀ key, key ∈ result.received ↔ key ∈ final.received)
    ∧ result.receivedBlobs = final.receivedBlobs
  placed : ∀ r ∈ records, r.1 ∈ result.received ∨ Exportable w.root r.1

omit [ScopeJson] in
lemma InForce.of_calm {w₁ : Workspace} {scope : Scope} (hcalm : Calm w w₁)
    (h : InForce w₁ scope) : InForce w scope := by
  refine ⟨by rw [← hcalm.scope]; exact h.file, ?_, by rw [← hcalm.revision]; exact h.revision,
    by rw [← hcalm.space]; exact h.space⟩
  have hfence := h.fence
  unfold Root.Matches at hfence ⊢
  rwa [← hcalm.fence]

omit [ScopeJson] in
lemma Receipted.of_calm {w₁ w' : Workspace} {records : List (RecordKey × Bytes)}
    {snapshot : Option Snapshot} {result : Scope} (hcalm : Calm w w₁)
    (h : Receipted w₁ records snapshot result w') : Receipted w records snapshot result w' := by
  obtain ⟨scope, hforce⟩ := h.force
  refine ⟨⟨scope, hforce.of_calm hcalm⟩, ?_, h.ledger, ?_⟩
  · rw [← hcalm.revision]
    exact h.revision
  · have hplaced := h.placed
    unfold Exportable at hplaced ⊢
    rwa [hcalm.scope, hcalm.chain] at hplaced

omit [ScopeJson] in
/-- Every record of a receipt is in the ledger on file, or could be offered all along. -/
lemma Receipted.final {w' : Workspace} {records : List (RecordKey × Bytes)}
    {snapshot : Option Snapshot} {result : Scope} (h : Receipted w records snapshot result w') :
    ∃ scope, w'.root.scope = some scope
      ∧ ∀ r ∈ records, r.1 ∈ scope.received ∨ Exportable w.root r.1 := by
  obtain ⟨final, hfinal, hreceived, -⟩ := h.ledger
  exact ⟨final, hfinal, fun r hr => (h.placed r hr).imp_left (hreceived r.1).mp⟩

omit [ScopeJson] in
lemma mem_logKeys {d : Directory} {key : RecordKey} :
    key ∈ logKeys d ↔ (firstOf (history d) key).isSome := by
  rw [firstOf_isSome]
  simp [logKeys]

omit [ScopeJson] in
/-- A corpus that shows the history has its keys. -/
lemma mem_known {d : Directory} {known : Corpus} (h : Shows (history d) known) {key : RecordKey} :
    key ∈ known.records ↔ key ∈ logKeys d := by
  rw [ExtTreeMap.mem_iff_isSome_getElem?, h.first key, mem_logKeys]

omit [ScopeJson] in
lemma wp_ensureSnapshots (snapshot : Option Snapshot) :
    wp (ensureSnapshots snapshot)
      (fun _ w' => Calm w w' ∧ ∀ s, snapshot = some s → s.scopeRevision = w.replica.scopeRevision)
      (fun _ w' => Calm w w') w := by
  cases snapshot with
  | none => exact ⟨.refl w, fun s hs => (by cases hs)⟩
  | some snapshot =>
    apply wp_mono (wp_ensureSnapshot snapshot)
    · rintro _ w' ⟨hcalm, -, hrevision⟩
      refine ⟨hcalm, ?_⟩
      rintro s hs
      cases hs
      exact hrevision
    · exact fun _ _ h => h

lemma wp_saveLedger {t : Workspace × SegmentStore} {scope : Scope} {known : Corpus}
    (h : Busy allowed w t) (hscope : t.1.root.scope = some scope)
    (hfence : t.1.root.Matches scope.revision) (hknown : Shows (history t.1.root.chain) known)
    (hallowed : allowed (.ingest scope.revision)) (records : List (RecordKey × Bytes)) :
    let receipt := Receipt.takeAll known scope records
    wp (saveLedger receipt)
      (fun _ t' => Busy allowed w t' ∧ t'.1.root.chain = t.1.root.chain
        ∧ t'.1.root.revision = t.1.root.revision
        ∧ t'.1.root.scope
          = some (if receipt.changed ∨ receipt.page.records ≠ [] then receipt.scope else scope))
      (fun _ t' => Busy allowed w t') t := by
  intro receipt
  unfold saveLedger
  by_cases hsave : receipt.changed ∨ receipt.page.records ≠ []
  · rw [if_pos hsave, if_pos hsave]
    unfold inside onRoot
    rw [wp_zoom, wp_zoom]
    have hsaved : ∀ r, Root.Quiet { t.1.root with scope := some receipt.scope } r →
        Busy allowed w ({ t.1 with root := r }, t.2) := fun r hr =>
      h.root hallowed (.ledger hscope hfence hknown records) hr rfl
    apply wp_mono (Root.wp_saveScope receipt.scope)
    · intro _ r hr
      refine ⟨hsaved r hr, ?_, ?_, ?_⟩
      · show r.chain = _
        rw [hr]
      · show r.revision = _
        rw [hr]
      · show r.scope = _
        rw [hr]
    · rintro _ r (hr | hr)
      · exact h.quiet hr
      · exact hsaved r hr
  · rw [if_neg hsave, if_neg hsave]
    exact ⟨h, rfl, rfl, hscope⟩

omit [ScopeJson] in
/-- The staged records enter the log under keys of the ledger. -/
lemma wp_appendStaged {t : Workspace × SegmentStore} {scope : Scope} {known : Corpus}
    {records : List (RecordKey × Bytes)} (h : Busy allowed w t)
    (hledger : Receipt.Ledger known scope records (Receipt.takeAll known scope records))
    (hscope : (Receipt.takeAll known scope records).page.records ≠ [] →
      t.1.root.scope = some (Receipt.takeAll known scope records).scope)
    (hfence : t.1.root.Matches scope.revision) (hallowed : allowed (.ingest scope.revision))
    (hderived : ∀ r ∈ records, RecordKey.fromEncoded r.2 = .ok r.1) :
    wp (appendStaged (Receipt.takeAll known scope records))
      (fun _ t' => Busy allowed w t' ∧ t'.1.root.scope = t.1.root.scope)
      (fun _ t' => Busy allowed w t') t := by
  unfold appendStaged
  by_cases hpage : (Receipt.takeAll known scope records).page.records ≠ []
  swap
  · rw [if_neg hpage]
    exact ⟨h, rfl⟩
  rw [if_pos hpage]
  have hreceive : ∀ t' : Workspace × SegmentStore,
      Appends t t' ((Receipt.takeAll known scope records).page.records.map Record.data) →
        Busy allowed w t' := by
    intro t' happends
    obtain ⟨shapes', hgood'⟩ := happends.good
    apply h.appends happends
    have hstep : Step (.ingest (Receipt.takeAll known scope records).scope.revision) t.1.root
        { t.1.root with chain := t'.1.root.chain } := by
      apply Step.receive (hscope hpage) (by rw [hledger.revision]; exact hfence) happends.wrote
      intro o ho
      obtain ⟨new, hnew, hbytes, -⟩ := happends.wrote.history
      have hkey := fromEncoded_of_mem ho
      rw [hnew] at ho
      rcases List.mem_append.mp ho with hold | hin
      · exact .inl hold
      · -- a new record was staged under its own key
        have hdata := List.mem_map_of_mem (f := fun r : Occurrence => r.2.bytes) hin
        rw [hbytes] at hdata
        obtain ⟨record, hrecord, heq⟩ := List.mem_map.mp (List.mem_filter.mp hdata).1
        obtain ⟨r, hr, hrdata, hstaged⟩ := hledger.page record hrecord
        have hown := hderived r hr
        rw [← hrdata, heq, hkey] at hown
        right
        rw [Except.ok.inj hown]
        exact hledger.staged r.1 hstaged
    rw [hledger.revision] at hstep
    exact (Path.refl _).step hallowed hstep
  apply wp_mono (wp_appendPage h.good _)
  · rintro _ t' ⟨happends, -, -⟩
    refine ⟨hreceive t' happends, ?_⟩
    rw [happends.root]
  · rintro _ t' (happends | happends)
    · exact h.appends_nil happends
    · exact hreceive t' happends

lemma wp_receive {t : Workspace × SegmentStore} {records : List (RecordKey × Bytes)}
    {snapshot : Option Snapshot}
    (h : Busy (Ingesting w.replica.scopeRevision snapshot) w t) (hscope : t.1.root.scope = w.root.scope)
    (hfence : t.1.root.revision = w.root.revision)
    (hhistory : history t.1.root.chain = history w.root.chain) (hretains : Retains w.root)
    (hderived : ∀ r ∈ records, RecordKey.fromEncoded r.2 = .ok r.1) :
    wp (receive records snapshot)
      (fun result t' => Busy (Ingesting w.replica.scopeRevision snapshot) w t'
        ∧ Receipted w records snapshot result t'.1)
      (fun _ t' => Busy (Ingesting w.replica.scopeRevision snapshot) w t') t := by
  obtain ⟨shapes, hgood⟩ := h.good
  unfold receive
  rw [wp_bind]
  apply wp_mono (wp_inside_calm h (wp_readEvidence (readable_size hgood.holds) h.follows))
  swap
  · exact fun _ _ h' => h'
  rintro known t₁ ⟨h₁, hcalm₁, -, hshows⟩
  rw [wp_bind]
  apply wp_mono (wp_inside_calm h₁ wp_loadScope)
  swap
  · exact fun _ _ h' => h'
  rintro scope t₂ ⟨h₂, hcalm₂, -, hforce⟩
  rw [wp_bind]
  apply wp_mono (wp_inside_calm h₂ (wp_ensureSnapshots snapshot))
  swap
  · exact fun _ _ h' => h'
  rintro _ t₃ ⟨h₃, hcalm₃, -, hsnapshot⟩
  -- nothing has been written so far
  have hcalm := (hcalm₁.trans hcalm₂).trans hcalm₃
  have hforce' : InForce w scope := by
    have hstart := hforce.of_calm hcalm₁
    refine ⟨by rw [← hscope]; exact hstart.file, ?_, hstart.revision.trans h.revision,
      hstart.space.trans h.space⟩
    have hmatches := hstart.fence
    unfold Root.Matches at hmatches ⊢
    rwa [← hfence]
  have hfile : t₃.1.root.scope = some scope := by
    rw [(hcalm₂.trans hcalm₃).scope]
    exact hforce.file
  have hmatches : t₃.1.root.Matches scope.revision := by
    have hmatches := hforce.fence
    unfold Root.Matches at hmatches ⊢
    rwa [(hcalm₂.trans hcalm₃).fence]
  have hshows₃ : Shows (history t₃.1.root.chain) known := by
    rw [hcalm.chain]
    exact hshows
  have hknown : ∀ key ∈ scope.excluded, key ∈ known.records := by
    intro key hkey
    rw [mem_known hshows]
    have hin := hretains scope hforce'.file key hkey
    unfold logKeys at hin ⊢
    rwa [hhistory]
  have hledger := Receipt.ledger_takeAll hknown records
  have hrevision : ∀ s, snapshot = some s → s.scopeRevision = w.replica.scopeRevision := by
    intro s hs
    rw [hsnapshot s hs]
    exact h₂.revision
  have hallowed : Ingesting w.replica.scopeRevision snapshot (.ingest scope.revision) :=
    ⟨by rw [hforce'.revision], hrevision⟩
  rw [wp_bind]
  apply wp_mono (wp_saveLedger h₃ hfile hmatches hshows₃ hallowed records)
  swap
  · exact fun _ _ h' => h'
  rintro _ t₄ ⟨h₄, hchain₄, hfence₄, hfile₄⟩
  rw [wp_bind]
  have hmatches₄ : t₄.1.root.Matches scope.revision := by
    unfold Root.Matches at hmatches ⊢
    rwa [hfence₄]
  apply wp_mono (wp_appendStaged h₄ hledger
    (fun hpage => by rw [hfile₄, if_pos (.inr hpage)]) hmatches₄ hallowed hderived)
  swap
  · exact fun _ _ h' => h'
  rintro _ t₅ ⟨h₅, hfile₅⟩
  have hdone : ∀ w' : Workspace, w'.root.scope = t₅.1.root.scope →
      Receipted w records snapshot (Receipt.takeAll known scope records).scope w' := by
    intro w' hw'
    refine ⟨⟨scope, hforce'⟩, hrevision, ?_, ?_⟩
    · rw [hw', hfile₅, hfile₄]
      refine ⟨_, rfl, ?_⟩
      by_cases hsave : (Receipt.takeAll known scope records).changed
          ∨ (Receipt.takeAll known scope records).page.records ≠ []
      · rw [if_pos hsave]
        exact ⟨fun _ => Iff.rfl, rfl⟩
      · rw [if_neg hsave]
        rw [not_or, Bool.not_eq_true, not_not] at hsave
        exact ⟨(hledger.same hsave.1 hsave.2).1, hledger.receivedBlobs⟩
    · intro r hr
      refine (hledger.taken r hr).imp_right ?_
      rintro ⟨record, hrecord, hexcludes⟩
      refine ⟨scope, record, hforce'.file, ?_, hexcludes⟩
      rw [← hhistory, ← hshows.first]
      exact hrecord
  rw [wp_bind]
  unfold settle
  by_cases hsettle : (Receipt.takeAll known scope records).staged.size < records.length
  · rw [if_pos hsettle]
    have hsync : wp syncAll (fun _ w' => Calm t₅.1 w' ∧ True) (fun _ w' => Calm t₅.1 w') t₅.1 :=
      wp_mono wp_syncAll (fun _ _ h' => ⟨h', trivial⟩) (fun _ _ h' => h')
    apply wp_mono (wp_inside_calm h₅ hsync)
    swap
    · exact fun _ _ h' => h'
    rintro _ t₆ ⟨h₆, hcalm₆, -, -⟩
    exact ⟨h₆, hdone t₆.1 hcalm₆.scope⟩
  · rw [if_neg hsettle]
    exact ⟨h₅, hdone t₅.1 rfl⟩

lemma wp_ingestInto (hw : Sound w) (hretains : Retains w.root)
    (records : List (RecordKey × Bytes)) (snapshot : Option Snapshot) :
    wp (ingestInto records snapshot)
      (fun result w' => Rests (Ingesting w.replica.scopeRevision snapshot) w w'
        ∧ Receipted w records snapshot result w')
      (fun _ w' => Rests (Ingesting w.replica.scopeRevision snapshot) w w') w := by
  obtain ⟨shapes, hshapes⟩ := hw.holds
  unfold ingestInto
  rw [wp_bind, wp_lift]
  refine ⟨?_, fun _ _ => hw.rests (.refl w)⟩
  intro _ hvalid
  rw [wp_bind]
  apply wp_mono (wp_warmEvidence (readable_size hshapes) hw.follows)
  swap
  · intro _ w₁ hcalm
    exact hw.rests hcalm
  intro _ w₁ hcalm
  rw [← hcalm.revision]
  have hretains₁ : Retains w₁.root := by
    unfold Retains
    rw [hcalm.scope, hcalm.chain]
    exact hretains
  apply wp_mono (wp_locked (P := Receipted w₁ records snapshot) (hw.calm hcalm) _ _)
  · rintro result w' ⟨hrests, hreceipted⟩
    exact ⟨hrests.of_calm hcalm, hreceipted.of_calm hcalm⟩
  · intro _ w' hrests
    exact hrests.of_calm hcalm
  · intro result w' d _ hreceipted
    exact ⟨hreceipted.force, hreceipted.revision, hreceipted.ledger, hreceipted.placed⟩
  · intro t ht hscope hfence hsegments
    apply wp_receive ht hscope hfence _ hretains₁
    · rintro ⟨key, bytes⟩ hr
      exact validateRecords_derived hvalid hr
    · rw [(wrote_of_segments hsegments).history_eq]

/-! ## Content -/

/-- Content was written, unless it was there already or the file system failed. -/
def Keeps (r : Root) (bytes : Bytes) (r' : Root) : Prop :=
  Root.Quiet r r' ∨ (r.blobs[Blake3.hash bytes]? = none
    ∧ Root.Quiet { r with blobs := r.blobs.insert (Blake3.hash bytes) bytes } r')

omit [Checksum] [ScopeJson] in
lemma wp_writeBlob {r : Root} (bytes : Bytes) :
    wp (Root.writeBlob bytes) (fun _ r' => Keeps r bytes r')
      (fun _ r' => Keeps r bytes r') r := by
  unfold Root.writeBlob
  rw [wp_bind, wp_get]
  cases hold : r.blobs[Blake3.hash bytes]? with
  | some existing =>
    simp only
    rw [wp_guard]
    refine ⟨fun _ => .inl (.refl r), fun _ => ?_⟩
    apply wp_mono (Root.wp_publish Io.blobWrites _ (fun _ _ h => h))
    · intro _ r' hr'
      exact .inl hr'
    · rintro _ r' (hr' | hr')
      · exact .inl hr'
      · exact .inl hr'
  | none =>
    simp only
    let effect : Root → Root := fun root =>
      { root with blobs := root.blobs.insert (Blake3.hash bytes) bytes }
    have heffect : ∀ r r' : Root, Root.Quiet r r' → Root.Quiet (effect r) (effect r') := by
      intro r r' h
      rw [h]
      rfl
    apply wp_mono (Root.wp_publish Io.blobWrites _ heffect)
    · intro _ r' hr'
      exact .inr ⟨hold, hr'⟩
    · rintro _ r' (hr' | hr')
      · exact .inl hr'
      · exact .inr ⟨hold, hr'⟩

/-- The kinds of steps that publish content. -/
def Publishing (revision : ℕ) (hash : Digest) (kind : Kind) : Prop :=
  kind = .publish revision hash

variable [ContentSchema Op]

lemma wp_publishBlob {t : Workspace × SegmentStore} {key : RecordKey} {hash : Digest}
    {bytes : Bytes} (hhash : Blake3.hash bytes = hash)
    (h : Busy (Publishing w.replica.scopeRevision hash) w t) :
    wp (inside (publishBlob key hash bytes))
      (fun _ t' => Busy (Publishing w.replica.scopeRevision hash) w t'
        ∧ (∃ scope, InForce t.1 scope)
        ∧ ∃ scope, t'.1.root.scope = some scope ∧ hash ∈ scope.receivedBlobs)
      (fun _ t' => Busy (Publishing w.replica.scopeRevision hash) w t') t := by
  obtain ⟨shapes, hgood⟩ := h.good
  unfold inside
  rw [wp_zoom]
  unfold publishBlob
  rw [wp_bind]
  apply wp_mono wp_loadScope
  swap
  · intro _ w₁ hcalm
    exact h.calm hcalm
  rintro scope w₁ ⟨hcalm₁, hforce⟩
  rw [wp_bind]
  have h₁ := h.calm hcalm₁
  have hholds : Holds w₁.root.chain shapes := by
    rw [hcalm₁.chain]
    exact hgood.holds
  apply wp_mono (wp_readEvidence (readable_size hholds) h₁.follows)
  swap
  · intro _ w₂ hcalm₂
    exact h₁.calm hcalm₂
  rintro known w₂ ⟨hcalm₂, -⟩
  have h₂ : Busy (Publishing w.replica.scopeRevision hash) w (w₂, t.2) := h₁.calm hcalm₂
  have hcalm := hcalm₁.trans hcalm₂
  rw [wp_bind, wp_lift]
  refine ⟨fun encoded _ => ?_, fun _ _ => h₂⟩
  rw [wp_bind, wp_lift]
  refine ⟨fun references _ => ?_, fun _ _ => h₂⟩
  rw [wp_guard]
  refine ⟨fun _ => h₂, fun _ => ?_⟩
  have hfile : w₂.root.scope = some scope := by
    rw [hcalm.scope]
    exact hforce.file
  have hfence : w₂.root.Matches scope.revision := by
    have hmatches := hforce.fence
    unfold Root.Matches at hmatches ⊢
    rwa [hcalm.fence]
  have hrevision : scope.revision = w.replica.scopeRevision := hforce.revision.trans h.revision
  have hkept : ∀ r, Keeps w₂.root bytes r →
      Busy (Publishing w.replica.scopeRevision hash) w ({ w₂ with root := r }, t.2)
        ∧ r.scope = w₂.root.scope ∧ r.revision = w₂.root.revision := by
    rintro r (hr | ⟨hfresh, hr⟩)
    · exact ⟨h₂.quiet hr, by rw [hr], by rw [hr]⟩
    · refine ⟨h₂.root ?_ (.blob hfile hfence bytes hfresh) hr rfl, by rw [hr], by rw [hr]⟩
      unfold Publishing
      rw [hrevision, hhash]
  unfold onRoot
  rw [wp_bind, wp_zoom]
  apply wp_mono (wp_writeBlob bytes)
  swap
  · intro _ r hr
    exact (hkept r hr).1
  intro _ r₃ hr₃
  obtain ⟨h₃, hscope₃, hfence₃⟩ := hkept r₃ hr₃
  rw [wp_zoom]
  have hfile₃ : r₃.scope = some scope := hscope₃.trans hfile
  have hmatches₃ : r₃.Matches scope.revision := by
    unfold Root.Matches at hfence ⊢
    rwa [hfence₃]
  have hsaved : ∀ r, Root.Quiet
      { r₃ with scope := some { scope with receivedBlobs := scope.receivedBlobs.insert hash } } r →
      Busy (Publishing w.replica.scopeRevision hash) w ({ w₂ with root := r }, t.2) := by
    intro r hr
    refine h₃.root ?_ (.receivedBlob hfile₃ hmatches₃ hash) hr rfl
    unfold Publishing
    rw [hrevision]
  apply wp_mono (Root.wp_saveScope _)
  · intro _ r hr
    refine ⟨hsaved r hr, ⟨scope, hforce⟩, { scope with
      receivedBlobs := scope.receivedBlobs.insert hash }, ?_, ?_⟩
    · show r.scope = _
      rw [hr]
    · exact ExtTreeSet.mem_insert_self
  · rintro _ r (hr | hr)
    · exact h₃.quiet hr
    · exact hsaved r hr

lemma wp_ingestBlob (hw : Sound w) (key : RecordKey) (hash : Digest) (bytes : Bytes) :
    wp (ingestBlob key hash bytes)
      (fun _ w' => Rests (Publishing w.replica.scopeRevision hash) w w'
        ∧ Blake3.hash bytes = hash ∧ (∃ scope, InForce w scope)
        ∧ ∃ scope, w'.root.scope = some scope ∧ hash ∈ scope.receivedBlobs)
      (fun _ w' => Rests (Publishing w.replica.scopeRevision hash) w w'
        ∧ (Blake3.hash bytes = hash ∨ Calm w w')) w := by
  obtain ⟨shapes, hshapes⟩ := hw.holds
  unfold ingestBlob
  rw [wp_guard]
  refine ⟨fun _ => ⟨hw.rests (.refl w), .inr (.refl w)⟩, fun hmatch => ?_⟩
  have hhash : Blake3.hash bytes = hash := by
    by_contra hne
    exact hmatch (.inr hne)
  rw [wp_bind]
  apply wp_mono (wp_warmEvidence (readable_size hshapes) hw.follows)
  swap
  · intro _ w₁ hcalm
    exact ⟨hw.rests hcalm, .inl hhash⟩
  intro _ w₁ hcalm
  rw [← hcalm.revision]
  apply wp_mono (wp_locked (P := fun _ w' => (∃ scope, InForce w scope)
    ∧ ∃ scope, w'.root.scope = some scope ∧ hash ∈ scope.receivedBlobs) (hw.calm hcalm) _ _)
  · rintro _ w' ⟨hrests, hforce, hledger⟩
    exact ⟨hrests.of_calm hcalm, hhash, hforce, hledger⟩
  · intro _ w' hrests
    exact ⟨hrests.of_calm hcalm, .inl hhash⟩
  · intro _ w' d _ hforce
    exact hforce
  · intro t ht hscope hfence hsegments
    apply wp_mono (wp_publishBlob hhash ht)
    · rintro _ t' ⟨ht', ⟨scope, hforce⟩, hledger⟩
      refine ⟨ht', ⟨scope, InForce.of_calm hcalm ?_⟩, hledger⟩
      refine ⟨by rw [← hscope]; exact hforce.file, ?_, hforce.revision.trans ht.revision,
        hforce.space.trans ht.space⟩
      have hmatches := hforce.fence
      unfold Root.Matches at hmatches ⊢
      rwa [← hfence]
    · exact fun _ _ h => h

omit [ScopeJson] in
lemma wp_references (snapshot : Snapshot) (key : RecordKey) :
    wp (references snapshot key)
      (fun refs w' => Calm w w' ∧ w.root.Matches w.replica.scopeRevision
        ∧ snapshot.scopeRevision = w.replica.scopeRevision
        ∧ ∃ encoded, snapshot.record key = some encoded ∧ recordReferences encoded = .ok refs)
      (fun _ w' => Calm w w') w := by
  unfold references
  rw [wp_bind]
  apply wp_mono (wp_ensureSnapshot snapshot)
  swap
  · exact fun _ _ h => h
  rintro _ w₁ ⟨hcalm, hmatches, hrevision⟩
  cases hrecord : snapshot.record key with
  | none => exact hcalm
  | some encoded =>
    simp only
    rw [wp_lift]
    exact ⟨fun refs hrefs => ⟨hcalm, hmatches, hrevision, encoded, rfl, hrefs⟩, fun _ _ => hcalm⟩

omit [Blake3] [Checksum] [ScopeJson] in
lemma references_of_ok {encoded : Bytes} {refs : ExtTreeMap Digest (List ℕ)} {hash : Digest}
    (h : recordReferences encoded = .ok refs) (hhash : refs.contains hash) :
    References encoded hash := by
  unfold recordReferences at h
  obtain ⟨op, hop, heq⟩ := bind_eq_ok.mp h
  rw [pure_eq_ok] at heq
  subst heq
  refine ⟨op, ?_, ExtTreeMap.contains_iff_mem.mp hhash⟩
  cases hdecode : Schema.decodeOp encoded with
  | error e =>
    rw [hdecode] at hop
    cases hop
  | ok op' =>
    rw [hdecode] at hop
    exact congrArg _ (Except.ok.inj hop)

omit [ScopeJson] [ContentSchema Op] in
lemma wp_readContent (refs : ExtTreeMap Digest (List ℕ)) (hash : Digest) :
    wp (readContent refs hash)
      (fun result w' => Calm w w' ∧ ∀ bytes, result = some bytes →
        refs.contains hash ∧ w.root.blobs[hash]? = some bytes ∧ Blake3.hash bytes = hash)
      (fun _ w' => Calm w w') w := by
  unfold readContent
  by_cases hrefs : refs.contains hash
  swap
  · rw [if_pos hrefs]
    exact ⟨.refl w, fun bytes hnone => (by cases hnone)⟩
  rw [if_neg (not_not_intro hrefs), wp_bind]
  have hcheck : wp (onRoot Root.checkRead) (fun _ w' => Calm w w' ∧ True) (fun _ w' => Calm w w') w :=
    wp_onRoot_calm (wp_mono Root.wp_checkRead (fun _ _ h => ⟨h, trivial⟩) (fun _ _ h => h))
  apply wp_mono hcheck
  swap
  · exact fun _ _ h => h
  rintro _ w₁ ⟨hcalm, -⟩
  rw [wp_bind, wp_get]
  have hblobs : w₁.root.blobs = w.root.blobs := by rw [hcalm.root]
  rw [hblobs]
  cases hblob : w.root.blobs[hash]? with
  | none => exact ⟨hcalm, fun bytes hnone => (by cases hnone)⟩
  | some stored =>
    simp only [wp_guard, wp_pure]
    refine ⟨fun _ => hcalm, fun _ => ⟨fun _ => hcalm, fun _ => ⟨fun _ => hcalm, fun hhash => ?_⟩⟩⟩
    refine ⟨hcalm, fun bytes hbytes => ?_⟩
    cases hbytes
    exact ⟨hrefs, rfl, not_not.mp hhash⟩

/-- Content that may be read through a snapshot. -/
structure Opens (snapshot : Snapshot) (key : RecordKey) (hash : Digest) (bytes : Bytes) (r : Root) :
    Prop where
  permitted : snapshot.permitsBlob key hash = true
  referenced : ∃ encoded, snapshot.record key = some encoded ∧ References encoded hash
  stored : r.blobs[hash]? = some bytes
  hash_eq : Blake3.hash bytes = hash

omit [ScopeJson] in
lemma wp_readBlob (snapshot : Snapshot) (key : RecordKey) (hash : Digest) :
    wp (readBlob snapshot key hash)
      (fun result w' => Calm w w' ∧ w.root.Matches w.replica.scopeRevision
        ∧ snapshot.scopeRevision = w.replica.scopeRevision
        ∧ ∀ bytes, result = some bytes → Opens snapshot key hash bytes w.root)
      (fun _ w' => Calm w w') w := by
  unfold readBlob
  rw [wp_bind]
  apply wp_mono (wp_ensureSnapshot snapshot)
  swap
  · exact fun _ _ h => h
  rintro _ w₁ ⟨hcalm₁, hmatches, hrevision⟩
  by_cases hpermits : snapshot.permitsBlob key hash = true
  swap
  · rw [if_pos (by simpa using hpermits)]
    exact ⟨hcalm₁, hmatches, hrevision, fun bytes hnone => (by cases hnone)⟩
  rw [if_neg (by simpa using hpermits), wp_bind]
  apply wp_mono (wp_references snapshot key)
  swap
  · intro _ w₂ hcalm₂
    exact hcalm₁.trans hcalm₂
  rintro refs w₂ ⟨hcalm₂, -, -, encoded, hrecord, hrefs⟩
  apply wp_mono (wp_readContent refs hash)
  swap
  · intro _ w₃ hcalm₃
    exact (hcalm₁.trans hcalm₂).trans hcalm₃
  rintro result w₃ ⟨hcalm₃, hread⟩
  refine ⟨(hcalm₁.trans hcalm₂).trans hcalm₃, hmatches, hrevision, fun bytes hbytes => ?_⟩
  obtain ⟨hcontains, hstored, hhash⟩ := hread bytes hbytes
  rw [(hcalm₁.trans hcalm₂).root] at hstored
  exact ⟨hpermits, ⟨encoded, hrecord, references_of_ok hrefs hcontains⟩, hstored, hhash⟩

omit [ScopeJson] in
lemma wp_blobHashes (snapshot : Snapshot) (key : RecordKey) :
    wp (blobHashes snapshot key)
      (fun _ w' => Calm w w' ∧ w.root.Matches w.replica.scopeRevision
        ∧ snapshot.scopeRevision = w.replica.scopeRevision)
      (fun _ w' => Calm w w') w := by
  unfold blobHashes
  rw [wp_bind]
  apply wp_mono (wp_references snapshot key)
  · rintro refs w' ⟨hcalm, hmatches, hrevision, -⟩
    exact ⟨hcalm, hmatches, hrevision⟩
  · exact fun _ _ h => h

/-! ## Opening -/

/-- The kinds of steps that bind a workspace. -/
def Binding (kind : Kind) : Prop := kind = .bind

/-- What binding a workspace leads to. -/
structure Bound (w w' : Workspace) : Prop where
  path : Path Binding w.root w'.root
  chain : w'.root.chain = w.root.chain
  follows : w'.replica.evidence.Follows w'.root.chain

omit [ScopeJson] [ContentSchema Op] in
lemma Bound.of_calm {w' : Workspace} (hcalm : Calm w w')
    (hfollows : w.replica.evidence.Follows w.root.chain) : Bound w w' :=
  ⟨(Path.refl _).quiet hcalm.root, hcalm.chain, hcalm.follows hfollows⟩

omit [ContentSchema Op] in
/-- The first scope of a workspace is saved. -/
lemma wp_bindScope {w₁ : Workspace} {scope : Scope} (hcalm : Calm w w₁)
    (hfollows : w.replica.evidence.Follows w.root.chain) (hnone : w.root.scope = none)
    (hscope : Initial w.root.chain scope) (hrevision : w.replica.scopeRevision = 0) :
    wp (onRoot (Root.saveScope scope))
      (fun _ w' => Bound w w' ∧ ∃ scope, w'.root.scope = some scope
        ∧ w'.replica.scopeRevision = scope.revision)
      (fun _ w' => Bound w w') w₁ := by
  have hnone₁ : w₁.root.scope = none := by rw [hcalm.scope, hnone]
  have hscope₁ : Initial w₁.root.chain scope := by
    rw [hcalm.chain]
    exact hscope
  have hsaved : ∀ r, Root.Quiet { w₁.root with scope := some scope } r →
      Bound w { w₁ with root := r } := by
    intro r hr
    have hchain : r.chain = w₁.root.chain := by rw [hr]
    refine ⟨?_, hchain.trans hcalm.chain, ?_⟩
    · have hstart : Path Binding w.root w₁.root := (Path.refl _).quiet hcalm.root
      exact (hstart.step rfl (.bind hnone₁ hscope₁)).quiet hr
    · show w₁.replica.evidence.Follows r.chain
      rw [hchain]
      exact hcalm.follows hfollows
  unfold onRoot
  rw [wp_zoom]
  apply wp_mono (Root.wp_saveScope scope)
  · intro _ r hr
    refine ⟨hsaved r hr, scope, ?_, ?_⟩
    · show r.scope = some scope
      rw [hr]
    · show w₁.replica.scopeRevision = scope.revision
      rw [hcalm.revision, hrevision, hscope.revision]
  · rintro _ r (hr | hr)
    · exact .of_calm (hcalm.trans (calm_of_quiet hr)) hfollows
    · exact hsaved r hr

omit [ContentSchema Op] in
lemma wp_bindSpace (hchain : w.root.chain.Readable w.root.chain.segments.size)
    (hfollows : w.replica.evidence.Follows w.root.chain) (hrevision : w.replica.scopeRevision = 0)
    (backfill : Bool) :
    wp (bindSpace backfill)
      (fun _ w' => Bound w w' ∧ ∃ scope, w'.root.scope = some scope
        ∧ w'.replica.scopeRevision = scope.revision)
      (fun _ w' => Bound w w') w := by
  unfold bindSpace
  rw [wp_bind, wp_get]
  cases hscope : w.root.scope with
  | some _ =>
    simp only
    rw [wp_bind]
    have hread := wp_onRoot_calm (w := w) Root.wp_readScope
    apply wp_mono hread
    swap
    · intro _ w₁ hcalm
      exact .of_calm hcalm hfollows
    rintro scope w₁ ⟨hcalm, hfile⟩
    rw [wp_bind]
    apply wp_mono (wp_checkSpace scope)
    · rintro _ w₂ ⟨rfl, -⟩
      rw [wp_modify]
      have hbound := Bound.of_calm hcalm hfollows
      exact ⟨⟨hbound.path, hbound.chain, hbound.follows⟩, scope, hcalm.scope.trans hfile, rfl⟩
    · rintro _ w₂ rfl
      exact .of_calm hcalm hfollows
  | none =>
    simp only
    cases backfill with
    | true =>
      rw [if_pos rfl]
      apply wp_bindScope (.refl w) hfollows hscope _ hrevision
      exact ⟨rfl, rfl, rfl, rfl, rfl, fun key hkey => absurd hkey ExtTreeSet.not_mem_empty⟩
    | false =>
      rw [if_neg (by simp), wp_bind]
      apply wp_mono (wp_readEvidence hchain hfollows)
      · rintro known w₁ ⟨hcalm, hshows⟩
        apply wp_bindScope hcalm hfollows hscope _ hrevision
        refine ⟨rfl, rfl, rfl, rfl, rfl, fun key hkey => ?_⟩
        rw [← mem_known hshows, ← ExtTreeMap.mem_keys]
        simpa using hkey
      · intro _ w₁ hcalm
        exact .of_calm hcalm hfollows

omit [ContentSchema Op] in
/-- Opening a workspace binds it, and the replica takes over the saved revision. -/
lemma wp_openSpace {r : Root} {shapes : List Shape} (hchain : Holds r.chain shapes)
    (hlock : r.chain.lock ≠ .held) (space : String) (backfill : Bool) :
    wp (openSpace space backfill)
      (fun replica r' => Path Binding r r' ∧ Sound ⟨r', replica⟩
        ∧ ∃ scope, r'.scope = some scope ∧ replica.scopeRevision = scope.revision)
      (fun _ r' => Path Binding r r' ∧ (∃ shapes, Holds r'.chain shapes) ∧ r'.chain.lock ≠ .held) r := by
  let w : Workspace := ⟨r, ⟨space, .new rootPath, 0⟩⟩
  have hw : Sound w := ⟨⟨shapes, hchain⟩, hlock, Evidence.follows_new _ _⟩
  have hlocked : wp (locked (inside (bindSpace backfill)))
      (fun _ w' => Path Binding r w'.root ∧ Sound w'
        ∧ ∃ scope, w'.root.scope = some scope ∧ w'.replica.scopeRevision = scope.revision)
      (fun _ w' => Path Binding r w'.root ∧ Sound w') w := by
    have hfail : ∀ (_ : IoError) (w' : Workspace), Rests Binding w w' →
        Path Binding r w'.root ∧ Sound w' := by
      intro _ w' hrests
      exact ⟨hrests.path, hrests.holds, hrests.unlocked, hrests.follows⟩
    apply wp_locked_of hw hfail
    · intro t ht _ _ _
      obtain ⟨shapes', hgood⟩ := ht.good
      have hclosed : ∀ w', Bound t.1 w' →
          Path Binding r (closed (w', t.2)).root ∧ Sound (closed (w', t.2)) := by
        intro w' hbound
        refine ⟨?_, Sound.closed ⟨shapes', ?_⟩ hbound.follows⟩
        · exact (ht.path.trans hbound.path).keep (.chain (wrote_of_segments rfl))
        · show Good ⟨w'.root.chain, t.2⟩ shapes'
          rwa [hbound.chain]
      unfold inside
      rw [wp_zoom]
      apply wp_mono (wp_bindSpace (readable_size hgood.holds) ht.follows ht.revision backfill)
      · rintro _ w' ⟨hbound, scope, hscope, hrevision⟩
        obtain ⟨hpath, hsound⟩ := hclosed w' hbound
        exact ⟨hpath, hsound, scope, hscope, hrevision⟩
      · intro _ w' hbound
        exact hclosed w' hbound
  unfold openSpace wp
  rw [exec_of]
  cases validateSpace space with
  | error e => exact ⟨.refl r, ⟨shapes, hchain⟩, hlock⟩
  | ok u =>
    simp only
    cases hexec : (locked (inside (bindSpace backfill))).exec w with
    | mk result w' =>
      cases result with
      | error e =>
        have hrun := wp_eq_error hlocked hexec
        exact ⟨hrun.1, hrun.2.holds, hrun.2.unlocked⟩
      | ok u =>
        have hrun := wp_eq_ok hlocked hexec
        exact hrun

end Replica
end EditChain.Sync
