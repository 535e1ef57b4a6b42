import EditChain.Lib.Keeps
import EditChain.Migration.HistoryTheorems
import EditChain.Migration.Run

/-!
# What a migration publishes

Nothing is renamed to the destination before the digest of the whole conversion was found equal to
the digest of what was written. So a destination holds the converted records of the source, in
order, and the history is kept exactly where conversion keeps it.
-/

namespace EditChain.Migration

open ByteString Core Fallible Store Sync Disk

/-! ## Steps -/

/-- The destination. -/
abbrev destinationOf (disk : Disk) : Option Staging := disk.destination

/-- The destination, and the chain in the staging directory. -/
abbrev chainsOf (disk : Disk) : Option Staging × Option Directory :=
  (disk.destination, disk.staging.map Staging.chain)

section Steps

variable {τ : Type} {view : Disk → τ}

/-- A view that does not look at the script. -/
def Unscripted (view : Disk → τ) : Prop :=
  ∀ (disk : Disk) (script : Script), view { disk with script := script } = view disk

lemma unscripted_destinationOf : Unscripted destinationOf := fun _ _ => rfl

lemma unscripted_chainsOf : Unscripted chainsOf := fun _ _ => rfl

lemma keeps_checkCancel (hview : Unscripted view) : Keeps view checkCancel := by
  intro disk
  unfold checkCancel
  simp only [wp_bind, wp_get, wp_set]
  rw [wp_ite]
  exact ⟨fun _ => hview disk _, fun _ => hview disk _⟩

/-- A durable step takes effect, or fails without it, with litter, or after it. -/
lemma wp_durable {effect litter : Disk → Disk} {ok : Unit → Disk → Prop}
    {err : IoError → Disk → Prop} {disk : Disk}
    (hok : ∀ script, ok () (effect { disk with script := script }))
    (herr : ∀ script error, err error { disk with script := script }
      ∧ err error (litter { disk with script := script })
      ∧ err error (effect { disk with script := script })) :
    wp (durable effect litter) ok err disk := by
  unfold durable
  simp only [wp_bind, wp_get, wp_set]
  cases disk.script.steps.headD none with
  | none => exact hok _
  | some fault =>
    obtain ⟨stop, error⟩ := fault
    cases stop with
    | before => exact (herr _ error).1
    | between => exact (herr _ error).2.1
    | after => exact (herr _ error).2.2

lemma keeps_durable (hview : Unscripted view) {effect litter : Disk → Disk}
    (heffect : ∀ disk, view (effect disk) = view disk)
    (hlitter : ∀ disk, view (litter disk) = view disk) : Keeps view (durable effect litter) := by
  intro disk
  apply wp_durable
  · intro script
    rw [heffect, hview]
  · intro script error
    rw [hlitter, heffect, hview]
    exact ⟨rfl, rfl, rfl⟩

lemma keeps_staged : Keeps view staged := by
  unfold staged
  apply keeps_get.bind
  intro disk
  cases disk.staging with
  | none => exact keeps_throw _
  | some staging => exact keeps_pure _

/-- Steps on the staging directory. -/
lemma keeps_durable_onStaging (f : Staging → Staging) {litter : Staging → Staging} :
    Keeps destinationOf (durable (onStaging f) (onStaging litter)) :=
  keeps_durable unscripted_destinationOf (fun _ => rfl) fun _ => rfl

lemma keeps_durable_onStaging_id (f : Staging → Staging) :
    Keeps destinationOf (durable (onStaging f)) :=
  keeps_durable unscripted_destinationOf (fun _ => rfl) fun _ => rfl

/-- Steps on the staging directory that leave its chain alone. -/
lemma chainsOf_onStaging {f : Staging → Staging} (h : ∀ s, (f s).chain = s.chain) (disk : Disk) :
    chainsOf (onStaging f disk) = chainsOf disk := by
  unfold chainsOf onStaging
  rw [Option.map_map]
  congr 2
  exact funext h

lemma keeps_save (state : Checkpoint) : Keeps chainsOf (save state) :=
  keeps_durable unscripted_chainsOf (chainsOf_onStaging fun _ => rfl)
    (chainsOf_onStaging fun _ => rfl)

lemma keeps_manifest (state : Checkpoint) :
    Keeps chainsOf (durable (onStaging fun s => { s with manifest := some state })) :=
  keeps_durable unscripted_chainsOf (chainsOf_onStaging fun _ => rfl) fun _ => rfl

end Steps

/-! ## The conversion leaves the destination alone -/

lemma keeps_checkpoint (path : String) : Keeps destinationOf (checkpoint path) := by
  unfold checkpoint
  apply keeps_staged.bind
  intro staging
  cases staging.checkpoint with
  | some state => exact Keeps.guard (keeps_pure _)
  | none =>
    apply Keeps.guard
    exact (keeps_durable_onStaging _).bind fun _ => keeps_pure _

lemma keeps_rollbackSegments (frontier : Option (ℕ × ℕ)) (sequences : List ℕ) :
    Keeps destinationOf (rollbackSegments frontier sequences) := by
  induction sequences with
  | nil => exact keeps_pure _
  | cons sequence rest ih =>
    unfold rollbackSegments
    cases frontier with
    | none => exact (keeps_durable_onStaging_id _).bind fun _ => ih
    | some f =>
      obtain ⟨last, length⟩ := f
      apply Keeps.ite
      · intro _
        apply Keeps.bind keeps_staged
        intro staging
        apply Keeps.guard
        exact (keeps_durable_onStaging_id _).bind fun _ => ih
      · intro _
        apply Keeps.ite
        · intro _
          exact (keeps_durable_onStaging_id _).bind fun _ => ih
        · intro _
          exact ih

lemma keeps_rollback (frontier : Option (ℕ × ℕ)) : Keeps destinationOf (rollback frontier) := by
  unfold rollback
  apply keeps_staged.bind
  intro staging
  apply (keeps_lift _).bind
  intro sequences
  apply Keeps.guard
  exact keeps_rollbackSegments _ _

variable {P : Payloads} [AddressHash] [Postcard P] [Blake3] [Checksum]

omit [AddressHash] [Checksum] in
lemma keeps_verifyOriginals (source : Source) (sequence : ℕ) (hashes : List Digest) :
    Keeps destinationOf (verifyOriginals source sequence hashes) := by
  induction hashes generalizing sequence with
  | nil => exact keeps_pure _
  | cons hash rest ih =>
    unfold verifyOriginals
    apply (keeps_checkCancel unscripted_destinationOf).bind
    intro _
    apply keeps_staged.bind
    intro staging
    apply (keeps_lift _).bind
    intro original
    apply Keeps.guard
    cases staging.originals[sequence]? with
    | none => exact (keeps_throw _).bind fun _ => ih _
    | some archived =>
      apply Keeps.guard
      exact ih _

omit [Blake3] [Checksum] in
lemma keeps_convertItems (items : List (Except ScanError ScanItem)) (report : MigrationReport) :
    Keeps destinationOf (convertItems (P := P) items report) := by
  induction items generalizing report with
  | nil => exact keeps_pure _
  | cons item rest ih =>
    unfold convertItems
    apply (keeps_checkCancel unscripted_destinationOf).bind
    intro _
    cases item with
    | error error =>
      apply Keeps.ite
      · intro _
        exact keeps_pure _
      · intro _
        exact keeps_throw _
    | ok item =>
      cases item with
      | page sequence offset => exact ih report
      | record record =>
        apply (keeps_lift _).bind
        intro converted
        apply (ih _).bind
        intro result
        exact keeps_pure _

omit [AddressHash] [Blake3] in
lemma keeps_openMigration : Keeps destinationOf openMigration := by
  intro disk
  unfold openMigration
  simp only [wp_bind, wp_get, wp_set]
  apply wp_mono (keeps_staged.wp rfl)
  · intro staging t ht
    rw [wp_modify, wp_lift]
    exact ⟨fun _ _ => ht, fun _ _ => ht⟩
  · intro e t ht
    exact ht

omit [AddressHash] [Blake3] in
lemma keeps_appendConverted (store : SegmentStore) (records : List Record) :
    Keeps destinationOf (appendConverted store records) := by
  intro disk
  unfold appendConverted onWriter
  simp only [wp_bind, wp_get, wp_set]
  apply wp_mono (keeps_staged.wp rfl)
  · intro staging t ht
    rw [wp_modify, wp_lift]
    exact ⟨fun _ _ => ht, fun _ _ => ht⟩
  · intro e t ht
    exact ht

lemma keeps_convertSegments (source : Source) (sequences : List ℕ) (store : SegmentStore)
    (state : Checkpoint) :
    Keeps destinationOf (convertSegments (P := P) source sequences store state) := by
  induction sequences generalizing store state with
  | nil => exact keeps_pure _
  | cons sequence rest ih =>
    unfold convertSegments
    apply (keeps_checkCancel unscripted_destinationOf).bind
    intro _
    apply (keeps_lift _).bind
    intro bytes
    apply (keeps_durable_onStaging_id _).bind
    intro _
    apply (keeps_convertItems _ _).bind
    intro converted
    apply (keeps_appendConverted _ _).bind
    intro store
    apply keeps_staged.bind
    intro staging
    apply (keeps_lift _).bind
    intro sequences
    exact (keeps_durable_onStaging _).bind fun _ => ih _ _

omit [AddressHash] [Blake3] [Checksum] in
lemma keeps_copyTree (files : List (String × Option Bytes)) :
    Keeps destinationOf (copyTree files) := by
  induction files with
  | nil => exact keeps_pure _
  | cons entry rest ih =>
    obtain ⟨path, file⟩ := entry
    unfold copyTree
    apply (keeps_checkCancel unscripted_destinationOf).bind
    intro _
    cases file with
    | none => exact keeps_throw _
    | some bytes => exact (keeps_durable_onStaging_id _).bind fun _ => ih

lemma keeps_copyPolicy [ScopeJson] (source : Source) :
    Keeps destinationOf (copyPolicy (P := P) source) := by
  intro disk
  unfold copyPolicy
  simp only [wp_bind, wp_get, wp_set]
  apply wp_mono (keeps_staged.wp rfl)
  · intro staging t ht
    rw [wp_modify, wp_lift]
    exact ⟨fun _ _ => ht, fun _ _ => ht⟩
  · intro e t ht
    exact ht

/-! ## Publication -/

/-- The bytes that the digest of a converted chain is taken of. -/
def transformedStream (d : Directory) : Except IoError Bytes := do
  let (records, _stats) ← SegmentStore.visitRecords d
  let converted ← records.mapM (convertRecord (P := P))
  let parts ← converted.mapM hashRecord
  return parts.flatten

/-- The bytes that the digest of a chain is taken of. -/
def encodedStream (d : Directory) : Except IoError Bytes := do
  let (records, _stats) ← SegmentStore.visitRecords d
  let parts ← records.mapM hashRecord
  return parts.flatten

/-- The digests of what a chain converts to and of another chain were found equal. -/
def Verified (d d' : Directory) : Prop :=
  ∃ a b, transformedStream (P := P) d = .ok a ∧ encodedStream d' = .ok b
    ∧ Blake3.hash a = Blake3.hash b

omit [AddressHash] [Blake3] [Checksum] in
lemma keeps_checkCancels (records : List Record) : Keeps chainsOf (checkCancels records) :=
  keeps_forM (fun _ => keeps_checkCancel unscripted_chainsOf) records

lemma wp_transformedDigest (d : Directory) (disk : Disk) :
    wp (transformedDigest (P := P) d)
      (fun digest t => chainsOf t = chainsOf disk
        ∧ ∃ a, transformedStream (P := P) d = .ok a ∧ digest = Blake3.hash a)
      (fun _ t => chainsOf t = chainsOf disk) disk := by
  unfold transformedDigest
  rw [wp_bind, wp_lift]
  refine ⟨fun visited hvisited => ?_, fun _ _ => rfl⟩
  obtain ⟨records, stats⟩ := visited
  rw [wp_bind]
  apply wp_mono ((keeps_checkCancels records).wp rfl)
  · intro _ t ht
    rw [wp_bind, wp_lift]
    refine ⟨fun converted hconverted => ?_, fun _ _ => ht⟩
    rw [wp_lift]
    refine ⟨fun digest hdigest => ?_, fun _ _ => ht⟩
    obtain ⟨parts, hparts, hhash⟩ := bind_eq_ok.mp hdigest
    refine ⟨ht, parts.flatten, ?_, (pure_eq_ok.mp hhash).symm⟩
    unfold transformedStream
    rw [hvisited]
    simp only [bind, Except.bind, hconverted, hparts]
    rfl
  · intro e t ht
    exact ht

omit [AddressHash] in
lemma wp_encodedDigest (d : Directory) (disk : Disk) :
    wp (encodedDigest d)
      (fun digest t => chainsOf t = chainsOf disk
        ∧ ∃ b, encodedStream d = .ok b ∧ digest = Blake3.hash b)
      (fun _ t => chainsOf t = chainsOf disk) disk := by
  unfold encodedDigest
  rw [wp_bind, wp_lift]
  refine ⟨fun visited hvisited => ?_, fun _ _ => rfl⟩
  obtain ⟨records, stats⟩ := visited
  rw [wp_bind]
  apply wp_mono ((keeps_checkCancels records).wp rfl)
  · intro _ t ht
    rw [wp_lift]
    refine ⟨fun digest hdigest => ?_, fun _ _ => ht⟩
    obtain ⟨parts, hparts, hhash⟩ := bind_eq_ok.mp hdigest
    refine ⟨ht, parts.flatten, ?_, (pure_eq_ok.mp hhash).symm⟩
    unfold encodedStream
    rw [hvisited]
    simp only [bind, Except.bind, hparts]
    rfl
  · intro e t ht
    exact ht

/-- Every destination holds a verified conversion of the source. -/
def Published (source : Source) (disk : Disk) : Prop :=
  ∀ published, disk.destination = some published → Verified (P := P) source.root.chain published.chain

/-- What happens to the marker of a destination does not change its chain. -/
lemma wp_removeMarker {source : Source} {disk : Disk} (h : Published (P := P) source disk) :
    wp removeMarker (fun _ t => Published (P := P) source t) (fun _ t => Published (P := P) source t)
      disk := by
  have hkeeps : Keeps (fun t : Disk => t.destination.map Staging.chain) removeMarker := by
    unfold removeMarker
    apply (keeps_durable (fun _ _ => rfl) (fun _ => rfl) fun _ => rfl).bind
    intro _
    apply (keeps_durable (fun _ _ => rfl) (fun t => ?_) fun _ => rfl).bind
    · intro _
      exact keeps_durable (fun _ _ => rfl) (fun _ => rfl) fun _ => rfl
    · unfold onDestination
      rw [Option.map_map]
      rfl
  have hpublished : ∀ t : Disk, t.destination.map Staging.chain = disk.destination.map Staging.chain →
      Published (P := P) source t := by
    intro t ht published hsome
    rw [hsome, Option.map_some] at ht
    obtain ⟨old, hold, hchain⟩ := Option.map_eq_some_iff.mp ht.symm
    rw [← hchain]
    exact h old hold
  exact wp_mono (hkeeps.wp rfl) (fun _ t ht => hpublished t ht) fun _ t ht => hpublished t ht

/-- Publication renames only what it has verified. -/
lemma wp_publish {source : Source} {disk : Disk} (h : Published (P := P) source disk)
    (state : Checkpoint) :
    wp (publish (P := P) source state) (fun _ t => Published (P := P) source t)
      (fun _ t => Published (P := P) source t) disk := by
  have hsame : ∀ t : Disk, chainsOf t = chainsOf disk → Published (P := P) source t := by
    intro t ht published hsome
    exact h published ((congrArg Prod.fst ht).symm.trans hsome)
  unfold publish
  rw [wp_bind]
  apply wp_mono ((keeps_checkCancel unscripted_chainsOf).wp rfl) _ fun _ t ht => hsame t ht
  intro _ t₁ h₁
  rw [wp_bind]
  apply wp_mono (wp_transformedDigest source.root.chain t₁) _ fun _ t ht => hsame t (ht.trans h₁)
  rintro original t₂ ⟨h₂, a, ha, rfl⟩
  have h₂' := h₂.trans h₁
  unfold staged
  simp only [wp_bind, wp_get]
  cases hstaging : t₂.staging with
  | none => exact hsame t₂ h₂'
  | some staging =>
    rw [wp_pure]
    apply wp_mono (wp_encodedDigest staging.chain t₂) _ fun _ t ht => hsame t (ht.trans h₂')
    rintro migrated t₃ ⟨h₃, b, hb, rfl⟩
    have h₃' := h₃.trans h₂'
    rw [wp_guard]
    refine ⟨fun _ => hsame t₃ h₃', fun hdigest => ?_⟩
    have hverified : Verified (P := P) source.root.chain staging.chain :=
      ⟨a, b, ha, hb, not_not.mp hdigest⟩
    have hchain : chainsOf t₃ = (disk.destination, some staging.chain) := by
      have hdestination : t₂.destination = disk.destination := congrArg Prod.fst h₂'
      rw [h₃]
      unfold chainsOf
      rw [hstaging, hdestination, Option.map_some]
    have hkept : ∀ t : Disk, chainsOf t = (disk.destination, some staging.chain) →
        Published (P := P) source t := by
      intro t ht published hsome
      exact h published ((congrArg Prod.fst ht).symm.trans hsome)
    rw [wp_bind]
    apply wp_mono ((keeps_save _).wp hchain) _ fun _ t ht => hkept t ht
    intro _ t₄ h₄
    rw [wp_bind]
    apply wp_mono ((keeps_manifest _).wp h₄) _ fun _ t ht => hkept t ht
    intro _ t₅ h₅
    rw [wp_bind, wp_get, wp_guard]
    refine ⟨fun _ => hkept t₅ h₅, fun _ => ?_⟩
    -- the staging directory takes the place of the destination
    have hrenamed : ∀ script, Published (P := P) source
        { script := script, staging := none, destination := t₅.staging } := by
      intro script published hsome
      have hstaged : t₅.staging.map Staging.chain = some staging.chain := congrArg Prod.snd h₅
      rw [show t₅.staging = some published from hsome, Option.map_some, Option.some_inj] at hstaged
      rw [hstaged]
      exact hverified
    rw [wp_bind]
    apply wp_durable
    · intro script
      rw [wp_bind]
      exact wp_mono (wp_removeMarker (hrenamed script)) (fun _ t ht => ht) fun _ _ ht => ht
    · intro script error
      exact ⟨hkept _ h₅, hkept _ h₅, hrenamed script⟩

omit [Blake3] in
lemma keeps_semanticDigest [SemanticHash] (d : Directory) :
    Keeps chainsOf (semanticDigest (P := P) d) := by
  unfold semanticDigest
  apply (keeps_lift _).bind
  intro visited
  apply (keeps_forM (fun _ => keeps_checkCancel unscripted_chainsOf) _).bind
  intro _
  apply (keeps_lift _).bind
  intro canonical
  apply (keeps_lift _).bind
  intro parts
  exact keeps_pure _

omit [AddressHash] in
lemma keeps_encodedDigest (d : Directory) : Keeps chainsOf (encodedDigest d) := by
  intro disk
  apply wp_mono (wp_encodedDigest d disk)
  · intro digest t ht
    exact ht.1
  · intro e t ht
    exact ht

lemma wp_finishPublication [SemanticHash] {source : Source} {disk : Disk} {published : Staging}
    (h : Published (P := P) source disk) :
    wp (finishPublication (P := P) source published) (fun _ t => Published (P := P) source t)
      (fun _ t => Published (P := P) source t) disk := by
  have hsame : ∀ t : Disk, chainsOf t = chainsOf disk → Published (P := P) source t := by
    intro t ht published hsome
    exact h published ((congrArg Prod.fst ht).symm.trans hsome)
  unfold finishPublication
  cases published.checkpoint with
  | none => exact h
  | some state =>
    rw [wp_guard]
    refine ⟨fun _ => h, fun _ => ?_⟩
    have hrest : ∀ (digest : Digest) (t : Disk), chainsOf t = chainsOf disk → wp (do
          if some digest ≠ state.report.semanticDigest then
            throw (invalid "published migration no longer matches its verified digest")
          removeMarker
          return state.report)
        (fun _ t => Published (P := P) source t) (fun _ t => Published (P := P) source t) t := by
      intro digest t ht
      rw [wp_guard]
      refine ⟨fun _ => hsame t ht, fun _ => ?_⟩
      rw [wp_bind]
      exact wp_mono (wp_removeMarker (hsame t ht)) (fun _ _ ht => ht) fun _ _ ht => ht
    by_cases hexact : state.exactDigest = true
    · simp only [hexact, if_true]
      rw [wp_bind]
      exact wp_mono ((keeps_encodedDigest _).wp rfl) (fun digest t ht => hrest digest t ht)
        fun _ t ht => hsame t ht
    · simp only [hexact, if_false, Bool.false_eq_true]
      rw [wp_bind]
      exact wp_mono ((keeps_semanticDigest _).wp rfl) (fun digest t ht => hrest digest t ht)
        fun _ t ht => hsame t ht

/-- The conversion publishes only what it has verified. -/
lemma wp_convert [ScopeJson] {source : Source} {disk : Disk} (h : Published (P := P) source disk) :
    wp (convert (P := P) source) (fun _ t => Published (P := P) source t)
      (fun _ t => Published (P := P) source t) disk := by
  have hsame : ∀ t : Disk, destinationOf t = destinationOf disk → Published (P := P) source t := by
    intro t ht published hsome
    exact h published (ht.symm.trans hsome)
  unfold convert
  rw [wp_bind]
  have hcreate : Keeps destinationOf
      (durable fun disk => { disk with staging := some (disk.staging.getD {}) }) :=
    keeps_durable unscripted_destinationOf (fun _ => rfl) fun _ => rfl
  apply wp_mono (hcreate.wp rfl) _ fun _ t ht => hsame t ht
  intro _ t₁ h₁
  rw [wp_bind]
  apply wp_mono ((keeps_checkpoint source.path).wp h₁) _ fun _ t ht => hsame t ht
  intro state t₂ h₂
  rw [wp_guard]
  refine ⟨fun _ => hsame t₂ h₂, fun _ => ?_⟩
  rw [wp_bind]
  have hsync : Keeps destinationOf (durable id) :=
    keeps_durable unscripted_destinationOf (fun _ => rfl) fun _ => rfl
  apply wp_mono (hsync.wp h₂) _ fun _ t ht => hsame t ht
  intro _ t₃ h₃
  rw [wp_bind, wp_lift]
  refine ⟨fun sequences _ => ?_, fun _ _ => hsame t₃ h₃⟩
  rw [wp_guard]
  refine ⟨fun _ => hsame t₃ h₃, fun _ => ?_⟩
  rw [wp_bind]
  apply wp_mono ((keeps_verifyOriginals source 0 _).wp h₃) _ fun _ t ht => hsame t ht
  intro _ t₄ h₄
  rw [wp_bind]
  apply wp_mono ((keeps_rollback _).wp h₄) _ fun _ t ht => hsame t ht
  intro _ t₅ h₅
  rw [wp_bind]
  apply wp_mono (keeps_openMigration.wp h₅) _ fun _ t ht => hsame t ht
  intro store t₆ h₆
  rw [wp_bind]
  apply wp_mono ((keeps_convertSegments source _ store _).wp h₆) _ fun _ t ht => hsame t ht
  intro state t₇ h₇
  simp only [wp_bind, wp_modify]
  have hreleased : destinationOf (t₇.onStaging fun s =>
      { s with chain := { s.chain with lock := .free } }) = destinationOf disk := h₇
  apply wp_mono ((keeps_copyTree source.auxiliary).wp hreleased) _ fun _ t ht => hsame t ht
  intro _ t₈ h₈
  apply wp_mono ((keeps_copyPolicy source).wp h₈) _ fun _ t ht => hsame t ht
  intro _ t₉ h₉
  exact wp_publish (hsame t₉ h₉) state

omit [AddressHash] [Blake3] [Checksum] in
/-- Releasing the lock comes last. -/
lemma wp_releasing {α : Type} {m : Fallible IoError Disk α} {ok : α → Disk → Prop}
    {err : IoError → Disk → Prop} {disk : Disk} :
    wp (releasing m) ok err disk
      ↔ wp m (fun a t => ok a (t.onStaging released)) (fun e t => err e (t.onStaging released)) disk := by
  unfold wp releasing
  rw [exec_of]
  cases m.exec disk with
  | mk r t => cases r <;> rfl

/-- A run of the migration keeps every destination verified. -/
lemma migrate_published [ScopeJson] [SemanticHash] {source : Source} {disk : Disk}
    (h : Published (P := P) source disk) :
    Published (P := P) source ((migrate (P := P) source).exec disk).2 := by
  have hwp : wp (migrate (P := P) source) (fun _ t => Published (P := P) source t)
      (fun _ t => Published (P := P) source t) disk := by
    unfold migrate
    rw [wp_bind, wp_get]
    cases disk.destination with
    | some published => exact wp_finishPublication h
    | none =>
      rw [wp_guard]
      refine ⟨fun _ => h, fun _ => ?_⟩
      rw [wp_releasing]
      exact wp_convert h
  exact exec_of_wp hwp

/-- Over all runs, every destination is verified. -/
lemma runs_published [ScopeJson] [SemanticHash] (source : Source) (scripts : List Script) :
    Published (P := P) source (runs (P := P) source scripts) := by
  have hfold : ∀ disk : Disk, Published (P := P) source disk → Published (P := P) source
      (scripts.foldl (fun disk script =>
        ((migrate (P := P) source).exec { disk with script := script }).2) disk) := by
    induction scripts with
    | nil => exact fun _ h => h
    | cons script rest ih =>
      intro disk h
      rw [List.foldl_cons]
      exact ih _ (migrate_published h)
  exact hfold {} fun _ hsome => (by cases hsome)

/-! ## The streams of records -/

omit [AddressHash] [Blake3] [Checksum] in
lemma hashRecord_eq_ok {record : Record} {part : Bytes} (h : hashRecord record = .ok part) :
    record.data.length < 2 ^ 64
      ∧ part = record.flags :: (leBytes 8 record.data.length ++ record.data) := by
  unfold hashRecord at h
  split at h
  · cases h
  · next hlt =>
    cases h
    exact ⟨by omega, rfl⟩

omit [AddressHash] [Blake3] [Checksum] in
/-- Flags and length say where a record ends, so a stream of records can be taken apart. -/
lemma eq_of_hashRecord_append {record record' : Record} {part part' rest rest' : Bytes}
    (h : hashRecord record = .ok part) (h' : hashRecord record' = .ok part')
    (hsame : part ++ rest = part' ++ rest') : record = record' ∧ rest = rest' := by
  obtain ⟨hlt, rfl⟩ := hashRecord_eq_ok h
  obtain ⟨hlt', rfl⟩ := hashRecord_eq_ok h'
  simp only [List.cons_append, List.append_assoc, List.cons.injEq] at hsame
  obtain ⟨hflags, hsame⟩ := hsame
  have hlengths : leBytes 8 record.data.length = leBytes 8 record'.data.length
      ∧ record.data ++ rest = record'.data ++ rest' :=
    List.append_inj hsame (by simp)
  have hlength : record.data.length = record'.data.length := by
    have hnat := congrArg leNat hlengths.1
    rwa [leNat_leBytes (by omega), leNat_leBytes (by omega)] at hnat
  obtain ⟨hdata, hrest⟩ := List.append_inj hlengths.2 hlength
  obtain ⟨flags, data⟩ := record
  obtain ⟨flags', data'⟩ := record'
  simp only at hflags hdata
  rw [hflags, hdata]
  exact ⟨rfl, hrest⟩

omit [AddressHash] [Blake3] [Checksum] in
/-- Equal streams are streams of equal records. -/
lemma eq_of_streams {records records' : List Record} {parts parts' : List Bytes}
    (h : records.mapM hashRecord = .ok parts) (h' : records'.mapM hashRecord = .ok parts')
    (hsame : parts.flatten = parts'.flatten) : records = records' := by
  have hpart : ∀ {r : Record} {p : Bytes}, hashRecord r = .ok p → p ≠ [] := by
    intro r p hr hp
    obtain ⟨-, rfl⟩ := hashRecord_eq_ok hr
    cases hp
  induction records generalizing records' parts parts' with
  | nil =>
    rw [List.mapM_nil] at h
    cases h
    cases records' with
    | nil => rfl
    | cons r' rest' =>
      rw [List.mapM_cons] at h'
      obtain ⟨p', hp', h'⟩ := bind_eq_ok.mp h'
      obtain ⟨ps', -, h'⟩ := bind_eq_ok.mp h'
      cases h'
      have hnil := (List.append_eq_nil_iff.mp hsame.symm).1
      exact absurd hnil (hpart hp')
  | cons r rest ih =>
    rw [List.mapM_cons] at h
    obtain ⟨p, hp, h⟩ := bind_eq_ok.mp h
    obtain ⟨ps, hps, h⟩ := bind_eq_ok.mp h
    cases h
    cases records' with
    | nil =>
      rw [List.mapM_nil] at h'
      cases h'
      have hnil := (List.append_eq_nil_iff.mp hsame).1
      exact absurd hnil (hpart hp)
    | cons r' rest' =>
      rw [List.mapM_cons] at h'
      obtain ⟨p', hp', h'⟩ := bind_eq_ok.mp h'
      obtain ⟨ps', hps', h'⟩ := bind_eq_ok.mp h'
      cases h'
      rw [List.flatten_cons, List.flatten_cons] at hsame
      obtain ⟨rfl, hrest⟩ := eq_of_hashRecord_append hp hp' hsame
      rw [ih hps hps' hrest]

omit [Blake3] [Checksum] in
/-- Converted records are the migrated ones. -/
lemma convertRecords_eq_ok {records converted : List Record}
    (h : records.mapM (convertRecord (P := P)) = .ok converted) :
    (∀ bytes ∈ records.map Record.data, ∃ out, migrateRecord (P := P) bytes = .ok out)
      ∧ converted.map Record.data = (records.map Record.data).map (migrated (P := P)) := by
  induction records generalizing converted with
  | nil =>
    rw [List.mapM_nil] at h
    cases h
    exact ⟨by simp, rfl⟩
  | cons r rest ih =>
    rw [List.mapM_cons] at h
    obtain ⟨c, hc, h⟩ := bind_eq_ok.mp h
    obtain ⟨cs, hcs, h⟩ := bind_eq_ok.mp h
    cases h
    obtain ⟨haccepted, hdata⟩ := ih hcs
    unfold convertRecord at hc
    cases hout : (migrateRecord (P := P) r.data) with
    | error e =>
      rw [hout] at hc
      cases hc
    | ok out =>
      rw [hout] at hc
      cases hc
      refine ⟨?_, ?_⟩
      · intro bytes hbytes
        rw [List.map_cons, List.mem_cons] at hbytes
        rcases hbytes with rfl | hbytes
        · exact ⟨out, hout⟩
        · exact haccepted bytes hbytes
      · rw [List.map_cons, List.map_cons, List.map_cons, hdata, migrated_of_ok hout]

/-! ## The published history -/

/-- The bytes of the complete records of a chain. -/
def recordBytes (d : Directory) : List Bytes := (d.recordsBelow d.segments.size).map Record.data

variable [ScopeJson] [SemanticHash] {source : Source} {scripts : List Script}
  {published : Staging}

/-- A published chain holds the migrated records of the source, in order. -/
lemma exists_histories
    (hpublished : (runs (P := P) source scripts).destination = some published)
    (hdigest : ∀ a b, transformedStream (P := P) source.root.chain = .ok a →
      encodedStream published.chain = .ok b → Blake3.hash a = Blake3.hash b → a = b) :
    (∀ bytes ∈ recordBytes source.root.chain, ∃ out, migrateRecord (P := P) bytes = .ok out)
      ∧ ∃ chain chain' : CanonicalChain (Op P), CanonicalChain.read source.root.chain = .ok chain
        ∧ CanonicalChain.read published.chain = .ok chain'
        ∧ Says (recordBytes source.root.chain) chain
        ∧ Says ((recordBytes source.root.chain).map (migrated (P := P))) chain' := by
  obtain ⟨a, b, ha, hb, hhash⟩ := runs_published source scripts published hpublished
  have hsame := hdigest a b ha hb hhash
  unfold transformedStream at ha
  obtain ⟨⟨records, stats⟩, hvisit, ha⟩ := bind_eq_ok.mp ha
  obtain ⟨converted, hconverted, ha⟩ := bind_eq_ok.mp ha
  obtain ⟨parts, hparts, ha⟩ := bind_eq_ok.mp ha
  unfold encodedStream at hb
  obtain ⟨⟨out, stats'⟩, hvisit', hb⟩ := bind_eq_ok.mp hb
  obtain ⟨parts', hparts', hb⟩ := bind_eq_ok.mp hb
  rw [← pure_eq_ok.mp ha, ← pure_eq_ok.mp hb] at hsame
  obtain rfl := eq_of_streams hparts hparts' hsame
  obtain ⟨haccepted, hdata⟩ := convertRecords_eq_ok hconverted
  obtain ⟨chain, hread, hsaid⟩ := @exists_read (Op P) _ _ _ _ _ hvisit
  obtain ⟨chain', hread', hsaid'⟩ := @exists_read (Op P) _ _ _ _ _ hvisit'
  obtain ⟨-, rfl⟩ := visitRecords_eq_ok hvisit
  rw [hdata] at hsaid'
  exact ⟨haccepted, chain, chain', hread, hread', hsaid, hsaid'⟩

/-- A migration that publishes keeps what the chain says, if and only if no unversioned record of the
source is there in its versioned spelling too. -/
theorem published_sameHistory_iff
    (hpublished : (runs (P := P) source scripts).destination = some published)
    (hround : RoundTrip (P := P)) (hids : Function.Injective SourceId.id)
    (hdigest : ∀ a b, transformedStream (P := P) source.root.chain = .ok a →
      encodedStream published.chain = .ok b → Blake3.hash a = Blake3.hash b → a = b) :
    ∃ chain chain' : CanonicalChain (Op P), CanonicalChain.read source.root.chain = .ok chain
      ∧ CanonicalChain.read published.chain = .ok chain'
      ∧ (SameHistory chain chain' ↔ Unrepeated (P := P) (recordBytes source.root.chain)) := by
  obtain ⟨haccepted, chain, chain', hread, hread', hsaid, hsaid'⟩ :=
    exists_histories hpublished hdigest
  refine ⟨chain, chain', hread, hread', ?_, ?_⟩
  · intro hsame
    exact unrepeated_of_sameHistory haccepted hround hsaid hsaid' hsame
  · intro hfree
    exact sameHistory_of_unrepeated haccepted hround hsaid hsaid' hids hfree

end EditChain.Migration

namespace EditChain.Migration

open Core Fallible Store Sync

section Messages

/-- What the digest of one migrated message is taken of. -/
def messagePart : Bytes := 0 :: (ByteString.leBytes 8 messageV3.length ++ messageV3)

local instance runAddresses : AddressHash := messageAddresses
local instance runPostcard : Postcard messagePayloads := messagePostcard
local instance runChecksum : Checksum := crc32cChecksum
local instance runJson : ScopeJson := ⟨fun _ => 0⟩
local instance runSemanticHash : SemanticHash := ⟨fun _ => 0⟩

/-- BLAKE3 on the segments and streams of the messages. -/
local instance runDigests : Blake3 where
  hash bytes :=
    if bytes = messagePart then
      0x80cbf91228cb4e6cb196212825c74115bb8a28fc082c2072869db37198f6a325
    else if bytes = messagePart ++ messagePart then
      0xf4901c99eb77767b2a8bfff8cd4c9e0eea50b00949989f7a49c8a67e3f1d73ff
    else if bytes = frameBytes 0 [⟨0, messageV1⟩] then
      0xf8243ef2d72f49bade25fe13f13fa92f7acf79643fcdfdf00444847741c4eb44
    else if bytes = frameBytes 0 [⟨0, messageV1⟩, ⟨0, messageV3⟩] then
      0x20478d0927ef410074b12b35353676d9ff133689cf32be045f8e5f556ebe9110
    else 0

/-- A chain of one segment with some records. -/
def messageSourceOf (records : List Record) : Source where
  path := "chain"
  root := { chain := { Directory.empty with
    segments := (∅ : Std.ExtTreeMap ℕ SegmentFile).insert 0 ⟨frameBytes 0 records, (0, 0), 0⟩ } }

/-- A message in the legacy spelling. -/
abbrev legacyChain : Source := messageSourceOf [⟨0, messageV1⟩]

/-- The same message in the legacy spelling and in the one it is rewritten to. -/
abbrev respelledChain : Source := messageSourceOf [⟨0, messageV1⟩, ⟨0, messageV3⟩]

lemma stream_injective {source : Source} {published : Staging} {stream : Bytes}
    (ha : transformedStream (P := messagePayloads) source.root.chain = .ok stream)
    (hb : encodedStream published.chain = .ok stream) :
    ∀ a b, transformedStream (P := messagePayloads) source.root.chain = .ok a →
      encodedStream published.chain = .ok b → Blake3.hash a = Blake3.hash b → a = b := by
  intro a b ha' hb' _
  rw [ha] at ha'
  rw [hb] at hb'
  rw [← Except.ok.inj ha', ← Except.ok.inj hb']

set_option maxRecDepth 4096 in
/-- A message in the legacy spelling alone is migrated faithfully. -/
theorem published_sameHistory_iff_legacy : ∃ published,
    (runs (P := messagePayloads) legacyChain [{}]).destination = some published
      ∧ ∃ chain chain' : CanonicalChain (Op messagePayloads),
        CanonicalChain.read legacyChain.root.chain = .ok chain
          ∧ CanonicalChain.read published.chain = .ok chain' ∧ SameHistory chain chain' := by
  have hsome : ((runs (P := messagePayloads) legacyChain [{}]).destination.map fun p =>
      encodedStream p.chain) = some (.ok messagePart) := by decide +kernel
  obtain ⟨published, hpublished, hb⟩ := Option.map_eq_some_iff.mp hsome
  have ha : transformedStream (P := messagePayloads) legacyChain.root.chain = .ok messagePart := by
    decide +kernel
  obtain ⟨chain, chain', hread, hread', hiff⟩ := published_sameHistory_iff hpublished
    messagePostcard_roundTrip messageAddresses_injective (stream_injective ha hb)
  refine ⟨published, hpublished, chain, chain', hread, hread', hiff.mpr ?_⟩
  have hbytes : recordBytes legacyChain.root.chain = [messageV1] := by decide +kernel
  rw [hbytes]
  intro a ha b hb hrespelled
  rw [List.mem_singleton] at ha hb
  rw [ha, hb] at hrespelled
  exact absurd hrespelled.magic.1 hrespelled.magic.2

set_option maxRecDepth 4096 in
/-- A message whose two spellings conflict in the source is accepted in the published chain. -/
theorem migration_joins_variants : ∃ published,
    (runs (P := messagePayloads) respelledChain [{}]).destination = some published
      ∧ ∃ chain chain' : CanonicalChain (Op messagePayloads),
        CanonicalChain.read respelledChain.root.chain = .ok chain
          ∧ CanonicalChain.read published.chain = .ok chain'
          ∧ chain.evidence.conflictedIds = {messageId} ∧ chain'.evidence.conflictedIds = ∅
          ∧ chain.stats.duplicates = 0 ∧ chain'.stats.duplicates = 1
          ∧ ¬ SameHistory chain chain' := by
  have hsome : ((runs (P := messagePayloads) respelledChain [{}]).destination.map fun p =>
      encodedStream p.chain) = some (.ok (messagePart ++ messagePart)) := by decide +kernel
  obtain ⟨published, hpublished, hb⟩ := Option.map_eq_some_iff.mp hsome
  have ha : transformedStream (P := messagePayloads) respelledChain.root.chain
      = .ok (messagePart ++ messagePart) := by decide +kernel
  obtain ⟨-, chain, chain', hread, hread', hsaid, hsaid'⟩ :=
    exists_histories hpublished (stream_injective ha hb)
  have hbytes : recordBytes respelledChain.root.chain = [messageV1, messageV3] := by decide +kernel
  have hmigrated : [messageV1, messageV3].map (migrated (P := messagePayloads))
      = [messageV3, messageV3] := by decide +kernel
  rw [hbytes] at hsaid hsaid'
  rw [hmigrated] at hsaid'
  have hclaims : @claims (Op messagePayloads) _ [messageV1, messageV3]
      = [(messageId, messageV1), (messageId, messageV3)] := by decide +kernel
  have hclaims' : @claims (Op messagePayloads) _ [messageV3, messageV3]
      = [(messageId, messageV3), (messageId, messageV3)] := by decide +kernel
  have hpairs := hsaid.evidence
  have hpairs' := hsaid'.evidence
  rw [hclaims] at hpairs
  rw [hclaims'] at hpairs'
  have hconflicted : chain.evidence.conflictedIds = {messageId} := by
    unfold OpSet.conflictedIds
    rw [hpairs]
    decide +kernel
  have hconflicted' : chain'.evidence.conflictedIds = ∅ := by
    unfold OpSet.conflictedIds
    rw [hpairs']
    decide +kernel
  have hduplicates := hsaid.duplicates
  have hduplicates' := hsaid'.duplicates
  rw [hclaims, hpairs] at hduplicates
  rw [hclaims', hpairs'] at hduplicates'
  have hcard : (List.toFinset [(messageId, messageV1), (messageId, messageV3)]).card = 2 := by
    decide +kernel
  have hcard' : (List.toFinset [(messageId, messageV3), (messageId, messageV3)]).card = 1 := by
    decide +kernel
  rw [hcard] at hduplicates
  rw [hcard'] at hduplicates'
  refine ⟨published, hpublished, chain, chain', hread, hread', hconflicted, hconflicted', ?_, ?_, ?_⟩
  · show chain.counts.duplicates = 0
    simp only [List.length_cons, List.length_nil] at hduplicates
    omega
  · show chain'.counts.duplicates = 1
    simp only [List.length_cons, List.length_nil] at hduplicates'
    omega
  · intro hsame
    have hids := hsame.conflicted
    rw [hconflicted, hconflicted'] at hids
    exact absurd hids (Finset.singleton_ne_empty messageId).symm

end Messages

end EditChain.Migration
