import Mathlib.Logic.Relation
import EditChain.Sync.ReceiptTheorems
import EditChain.Sync.StorageTheorems

/-!
# What the calls of a replica can do

Every call of a replica is a sequence of durable steps on the files of its workspace. `Step` lists
them, with what is known when each is taken; the properties of whole runs are derived from that list
alone. The lemmas before it give each part of a call its effect and its result.
-/

namespace EditChain.Sync

open Core Fallible Store
open Std (ExtTreeMap ExtTreeSet)

/-! ## The files -/

namespace Root

/-- Only the script moved on. -/
def Quiet (r r' : Root) : Prop := r' = { r with io := r'.io }

lemma Quiet.refl (r : Root) : Quiet r r := rfl

lemma Quiet.trans {r r' r'' : Root} (h : Quiet r r') (h' : Quiet r' r'') : Quiet r r'' := by
  show r'' = { r with io := r''.io }
  rw [h', h]

variable {r : Root}

lemma wp_pop {α : Type} (view : Io → List α) (update : List α → Io → Io) (default : α) :
    wp (pop view update default) (fun _ r' => Quiet r r') (fun _ _ => False) r := by
  unfold pop
  simp only [wp_bind, wp_get, wp_set, wp_pure]
  rfl

lemma wp_checkRead : wp checkRead (fun _ r' => Quiet r r') (fun _ r' => Quiet r r') r := by
  unfold checkRead
  rw [wp_bind]
  apply wp_mono (wp_pop Io.reads _ none)
  · intro fault r' hquiet
    cases fault with
    | some error => exact hquiet
    | none => exact hquiet
  · intro e r' hfalse
    exact hfalse.elim

/-- A replacement takes effect, or fails before or after that. -/
lemma wp_publish (view : Io → List WriteFault) (update : List WriteFault → Io → Io)
    {effect : Root → Root} (hquiet : ∀ r r' : Root, Quiet r r' → Quiet (effect r) (effect r')) :
    wp (publish view update effect) (fun _ r' => Quiet (effect r) r')
      (fun _ r' => Quiet r r' ∨ Quiet (effect r) r') r := by
  unfold publish
  rw [wp_bind]
  apply wp_mono (wp_pop view update none)
  · intro fault r' hpop
    cases fault with
    | some fault =>
      obtain ⟨applied, error⟩ := fault
      simp only [wp_bind, wp_modify, wp_throw]
      cases applied with
      | false => exact .inl hpop
      | true => exact .inr (hquiet r r' hpop)
    | none => exact hquiet r r' hpop
  · intro e r' hfalse
    exact hfalse.elim

lemma wp_atomicWrite {effect : Root → Root}
    (hquiet : ∀ r r' : Root, Quiet r r' → Quiet (effect r) (effect r')) :
    wp (atomicWrite effect) (fun _ r' => Quiet (effect r) r')
      (fun _ r' => Quiet r r' ∨ Quiet (effect r) r') r :=
  wp_publish _ _ hquiet

variable [ScopeJson]

/-- Reading the scope returns what the file holds. -/
lemma wp_readScope :
    wp readScope (fun scope r' => Quiet r r' ∧ r.scope = some scope)
      (fun _ r' => Quiet r r') r := by
  unfold readScope
  rw [wp_bind]
  apply wp_mono wp_checkRead
  · intro _ r' hquiet
    rw [wp_bind, wp_get]
    have hscope : r'.scope = r.scope := by rw [hquiet]
    cases hfile : r'.scope with
    | none => exact hquiet
    | some scope =>
      simp only [wp_guard, wp_bind, wp_lift, wp_pure]
      refine ⟨fun _ => hquiet, fun _ => ⟨fun _ => hquiet, fun _ => ⟨fun _ _ => ?_, fun _ _ => hquiet⟩⟩⟩
      exact ⟨hquiet, by rw [← hscope, hfile]⟩
  · intro e r' hquiet
    exact hquiet

lemma wp_saveScope (scope : Scope) :
    wp (saveScope scope) (fun _ r' => Quiet { r with scope := some scope } r')
      (fun _ r' => Quiet r r' ∨ Quiet { r with scope := some scope } r') r := by
  unfold saveScope
  rw [wp_guard]
  refine ⟨fun _ => .inl (Quiet.refl r), fun _ => ?_⟩
  apply wp_atomicWrite
  intro r r' h
  rw [h]
  rfl

/-- The fence that a revision expects. -/
def Matches (r : Root) (expected : ℕ) : Prop :=
  r.revision = some expected ∨ r.revision = none ∧ expected = 0

omit [ScopeJson] in
lemma wp_ensureRevision (expected : ℕ) :
    wp (ensureRevision expected) (fun _ r' => Quiet r r' ∧ Matches r expected)
      (fun _ r' => Quiet r r') r := by
  unfold ensureRevision
  rw [wp_bind]
  apply wp_mono wp_checkRead
  · intro _ r' hquiet
    rw [wp_bind, wp_get]
    have hrevision : r'.revision = r.revision := by rw [hquiet]
    cases hfile : r'.revision with
    | none =>
      simp only [wp_ite, wp_pure, wp_throw]
      exact ⟨fun hzero => ⟨hquiet, .inr ⟨by rw [← hrevision, hfile], hzero⟩⟩, fun _ => hquiet⟩
    | some revision =>
      simp only [wp_ite, wp_pure, wp_throw]
      refine ⟨fun heq => ⟨hquiet, .inl ?_⟩, fun _ => hquiet⟩
      rw [← hrevision, hfile, heq]
  · intro e r' hquiet
    exact hquiet

/-- The scope that a selection leads to. -/
def Selected (scope selected : Scope) (firstSegment : Option ℕ) : Prop :=
  ∃ now, selected = { scope with
    revision := scope.revision + 1
    cutoff := firstSegment.map fun segment => ⟨segment, now⟩
    excluded := ∅ }

omit [ScopeJson] in
/-- A selection raises the fence, or fails before or after that. -/
lemma wp_select (scope : Scope) (firstSegment : Option ℕ) :
    wp (select scope firstSegment)
      (fun selected r' => Quiet { r with revision := some (scope.revision + 1) } r'
        ∧ Selected scope selected firstSegment)
      (fun _ r' => Quiet r r' ∨ Quiet { r with revision := some (scope.revision + 1) } r') r := by
  unfold select
  rw [wp_guard]
  refine ⟨fun _ => .inl (Quiet.refl r), fun _ => ?_⟩
  rw [wp_bind]
  apply wp_mono (wp_pop Io.clock _ 0)
  · intro now r₁ hquiet
    rw [wp_bind]
    let effect : Root → Root := fun root => { root with revision := some (scope.revision + 1) }
    have hwrite : wp (atomicWrite effect) _ _ r₁ := wp_atomicWrite fun r r' h => by
      rw [h]
      rfl
    have hraised : Quiet { r with revision := some (scope.revision + 1) }
        { r₁ with revision := some (scope.revision + 1) } := by
      rw [hquiet]
      rfl
    apply wp_mono hwrite
    · intro _ r' h
      exact ⟨hraised.trans h, now, rfl⟩
    · rintro e r' (h | h)
      · exact .inl (hquiet.trans h)
      · exact .inr (hraised.trans h)
  · intro e r' hfalse
    exact hfalse.elim

end Root

variable {Op : Type} [Schema Op] [Blake3] [Checksum] [ScopeJson]

/-! ## Code that changes nothing durable -/

namespace Replica

/-- Only the script and the retained reader moved on. -/
structure Calm (w w' : Workspace) : Prop where
  root : Root.Quiet w.root w'.root
  space : w'.replica.space = w.replica.space
  revision : w'.replica.scopeRevision = w.replica.scopeRevision
  follows : w.replica.evidence.Follows w.root.chain → w'.replica.evidence.Follows w'.root.chain

omit [ScopeJson] in
lemma Calm.refl (w : Workspace) : Calm w w := ⟨.refl w.root, rfl, rfl, id⟩

omit [ScopeJson] in
lemma Calm.trans {w w' w'' : Workspace} (h : Calm w w') (h' : Calm w' w'') : Calm w w'' :=
  ⟨h.root.trans h'.root, h'.space.trans h.space, h'.revision.trans h.revision,
    fun hw => h'.follows (h.follows hw)⟩

omit [ScopeJson] in
lemma Calm.chain {w w' : Workspace} (h : Calm w w') : w'.root.chain = w.root.chain := by
  rw [h.root]

omit [ScopeJson] in
lemma Calm.scope {w w' : Workspace} (h : Calm w w') : w'.root.scope = w.root.scope := by
  rw [h.root]

omit [ScopeJson] in
lemma Calm.fence {w w' : Workspace} (h : Calm w w') : w'.root.revision = w.root.revision := by
  rw [h.root]

variable {w : Workspace} {α : Type}

omit [ScopeJson] in
lemma calm_of_quiet {r : Root} (h : Root.Quiet w.root r) : Calm w { w with root := r } := by
  refine ⟨h, rfl, rfl, fun hfollows => ?_⟩
  have hchain : r.chain = w.root.chain := by rw [h]
  show w.replica.evidence.Follows r.chain
  rwa [hchain]

omit [ScopeJson] in
/-- Reading files is calm. -/
lemma wp_onRoot_calm {m : Fallible IoError Root α} {P : α → Prop}
    (h : wp m (fun a r => Root.Quiet w.root r ∧ P a) (fun _ r => Root.Quiet w.root r) w.root) :
    wp (onRoot m) (fun a w' => Calm w w' ∧ P a) (fun _ w' => Calm w w') w := by
  unfold onRoot
  rw [wp_zoom]
  apply wp_mono h
  · intro a r hr
    exact ⟨calm_of_quiet hr.1, hr.2⟩
  · intro _ r hr
    exact calm_of_quiet hr

omit [ScopeJson] in
lemma wp_pop_calm {β : Type} (view : Io → List β) (update : List β → Io → Io) (default : β) :
    wp (onRoot (Root.pop view update default)) (fun _ w' => Calm w w') (fun _ _ => False) w := by
  unfold onRoot
  rw [wp_zoom]
  apply wp_mono (Root.wp_pop view update default)
  · intro _ r hr
    exact calm_of_quiet hr
  · intro _ r hfalse
    exact hfalse

omit [ScopeJson] in
lemma wp_ensureScope :
    wp ensureScope (fun _ w' => Calm w w' ∧ w.root.Matches w.replica.scopeRevision)
      (fun _ w' => Calm w w') w := by
  unfold ensureScope
  rw [wp_bind, wp_get]
  exact wp_onRoot_calm (Root.wp_ensureRevision w.replica.scopeRevision)

omit [Blake3] [Checksum] [ScopeJson] in
lemma wp_checkSpace (scope : Scope) :
    wp (checkSpace scope) (fun _ w' => w' = w ∧ scope.space = w.replica.space)
      (fun _ w' => w' = w) w := by
  unfold checkSpace
  rw [wp_bind, wp_get, wp_ite]
  refine ⟨fun _ => rfl, fun hspace => ⟨rfl, ?_⟩⟩
  by_contra hne
  exact hspace hne

/-- The scope that a replica works under. -/
structure InForce (w : Workspace) (scope : Scope) : Prop where
  file : w.root.scope = some scope
  fence : w.root.Matches scope.revision
  revision : scope.revision = w.replica.scopeRevision
  space : scope.space = w.replica.space

lemma wp_loadScope :
    wp loadScope (fun scope w' => Calm w w' ∧ InForce w scope) (fun _ w' => Calm w w') w := by
  unfold loadScope
  rw [wp_bind]
  apply wp_mono wp_ensureScope
  · rintro _ w₁ ⟨hcalm₁, hmatches⟩
    rw [wp_bind]
    apply wp_mono (wp_onRoot_calm (Root.wp_readScope))
    · rintro scope w₂ ⟨hcalm₂, hfile⟩
      rw [wp_bind]
      apply wp_mono (wp_checkSpace scope)
      · rintro _ w₃ ⟨rfl, hspace⟩
        rw [wp_bind, wp_get, wp_guard, wp_pure]
        have hcalm := hcalm₁.trans hcalm₂
        refine ⟨fun _ => hcalm, fun hrevision => ⟨hcalm, ?_⟩⟩
        have heq : scope.revision = w₃.replica.scopeRevision := by
          by_contra hne
          exact hrevision hne
        rw [hcalm.revision] at heq
        refine ⟨by rw [← hcalm₁.scope, hfile], by rwa [heq], heq, ?_⟩
        rw [hspace, hcalm.space]
      · rintro _ w₃ rfl
        exact hcalm₁.trans hcalm₂
    · intro _ w₂ hcalm₂
      exact hcalm₁.trans hcalm₂
  · intro _ w₁ hcalm₁
    exact hcalm₁

omit [ScopeJson] in
lemma wp_ensureSnapshot (snapshot : Snapshot) :
    wp (ensureSnapshot snapshot)
      (fun _ w' => Calm w w' ∧ w.root.Matches w.replica.scopeRevision
        ∧ snapshot.scopeRevision = w.replica.scopeRevision)
      (fun _ w' => Calm w w') w := by
  unfold ensureSnapshot
  rw [wp_bind]
  apply wp_mono wp_ensureScope
  · rintro _ w₁ ⟨hcalm, hmatches⟩
    rw [wp_bind, wp_get, wp_ite]
    refine ⟨fun _ => hcalm, fun hrevision => ⟨hcalm, hmatches, ?_⟩⟩
    rw [← hcalm.revision]
    by_contra hne
    exact hrevision hne
  · intro _ w₁ hcalm
    exact hcalm

omit [ScopeJson] in
lemma wp_syncAll : wp syncAll (fun _ w' => Calm w w') (fun _ w' => Calm w w') w := by
  unfold syncAll
  rw [wp_bind, wp_get, wp_bind, wp_lift]
  refine ⟨fun _ _ => ?_, fun _ _ => .refl w⟩
  rw [wp_bind]
  apply wp_mono (wp_pop_calm Io.syncs _ none)
  · intro fault w₁ hcalm
    cases fault with
    | some error => exact hcalm
    | none => exact hcalm
  · intro _ _ hfalse
    exact hfalse.elim

omit [ScopeJson] in
/-- The retained reader of a sound workspace shows the whole history. -/
lemma wp_readEvidence (hchain : w.root.chain.Readable w.root.chain.segments.size)
    (hfollows : w.replica.evidence.Follows w.root.chain) :
    wp (onEvidence (Evidence.read rootPath))
      (fun known w' => Calm w w' ∧ Shows (history w.root.chain) known)
      (fun _ w' => Calm w w') w := by
  unfold onEvidence
  rw [wp_bind, wp_get, wp_zoom]
  apply wp_mono (Evidence.wp_read hchain hfollows)
  · rintro known e ⟨hnext, hshows⟩
    exact ⟨⟨.refl _, rfl, rfl, fun _ => hnext⟩, hshows⟩
  · intro _ e hnext
    exact ⟨.refl _, rfl, rfl, fun _ => hnext⟩

omit [ScopeJson] in
lemma wp_warmEvidence (hchain : w.root.chain.Readable w.root.chain.segments.size)
    (hfollows : w.replica.evidence.Follows w.root.chain) :
    wp (onEvidence (Evidence.warm rootPath)) (fun _ w' => Calm w w') (fun _ w' => Calm w w') w := by
  unfold onEvidence
  rw [wp_bind, wp_get, wp_zoom]
  apply wp_mono (Evidence.wp_warm hchain hfollows)
  · intro _ e hnext
    exact ⟨.refl _, rfl, rfl, fun _ => hnext⟩
  · intro _ e hnext
    exact ⟨.refl _, rfl, rfl, fun _ => hnext⟩

/-! ## Durable steps -/

/-- Who takes a durable step, and what for. -/
inductive Kind where
  /-- No record, content or consent changes. -/
  | keep
  /-- This device appends records or writes content. -/
  | own
  /-- A workspace is bound to its space. -/
  | bind
  /-- Records of a peer enter the ledger or the log. -/
  | ingest (revision : ℕ)
  /-- Content enters the store or the ledger. -/
  | publish (revision : ℕ) (hash : Digest)
  /-- The fence is raised. -/
  | fence
  /-- A selected scope is saved. -/
  | select (backfill : Bool)

/-- The first scope of a workspace. -/
structure Initial (d : Directory) (scope : Scope) : Prop where
  revision : scope.revision = 0
  cutoff : scope.cutoff = none
  received : scope.received = ∅
  receivedBlobs : scope.receivedBlobs = ∅
  locals : scope.locals = ∅
  excluded : ∀ key ∈ scope.excluded, key ∈ logKeys d

/-- Every record lies before the cutoff, and every later one will not. -/
structure CutsOff (d : Directory) (segment : ℕ) : Prop where
  last : segment + 1 = d.segments.size
  before : ∀ r ∈ history d, r.2.segment < segment

/-- A durable step on the files of a workspace. -/
inductive Step : Kind → Root → Root → Prop
  | script (r : Root) (io : Io) : Step .keep r { r with io := io }
  | chain {r : Root} {d : Directory} (hwrote : Wrote r.chain d []) :
    Step .keep r { r with chain := d }
  | append {r : Root} {d : Directory} {added : List Bytes} (hwrote : Wrote r.chain d added) :
    Step .own r { r with chain := d }
  | content (r : Root) (bytes : Bytes) (hfresh : r.blobs[Blake3.hash bytes]? = none) :
    Step .own r { r with blobs := r.blobs.insert (Blake3.hash bytes) bytes }
  | bind {r : Root} {scope : Scope} (hnone : r.scope = none) (hscope : Initial r.chain scope) :
    Step .bind r { r with scope := some scope }
  | ledger {r : Root} {scope : Scope} {known : Corpus} (hscope : r.scope = some scope)
    (hfence : r.Matches scope.revision) (hknown : Shows (history r.chain) known)
    (records : List (RecordKey × Bytes)) :
    Step (.ingest scope.revision) r
      { r with scope := some (Receipt.takeAll known scope records).scope }
  | receive {r : Root} {scope : Scope} {d : Directory} {added : List Bytes}
    (hscope : r.scope = some scope) (hfence : r.Matches scope.revision)
    (hwrote : Wrote r.chain d added)
    (hreceived : ∀ o ∈ history d, o ∈ history r.chain ∨ o.1 ∈ scope.received) :
    Step (.ingest scope.revision) r { r with chain := d }
  | blob {r : Root} {scope : Scope} (hscope : r.scope = some scope)
    (hfence : r.Matches scope.revision) (bytes : Bytes)
    (hfresh : r.blobs[Blake3.hash bytes]? = none) :
    Step (.publish scope.revision (Blake3.hash bytes)) r
      { r with blobs := r.blobs.insert (Blake3.hash bytes) bytes }
  | receivedBlob {r : Root} {scope : Scope} (hscope : r.scope = some scope)
    (hfence : r.Matches scope.revision) (hash : Digest) :
    Step (.publish scope.revision hash) r
      { r with scope := some { scope with receivedBlobs := scope.receivedBlobs.insert hash } }
  | fence {r : Root} {scope : Scope} (hscope : r.scope = some scope) :
    Step .fence r { r with revision := some (scope.revision + 1) }
  | select {r : Root} {scope selected : Scope} {backfill : Bool} {segment : Option ℕ}
    (hscope : r.scope = some scope) (hfence : r.revision = some (scope.revision + 1))
    (hselected : Root.Selected scope selected segment)
    (hcutoff : if backfill then segment = none else ∃ n, segment = some n ∧ CutsOff r.chain n) :
    Step (.select backfill) r { r with scope := some selected }

/-- A sequence of durable steps of some kinds. -/
def Path (allowed : Kind → Prop) : Root → Root → Prop :=
  Relation.ReflTransGen fun r r' => ∃ kind, (kind = .keep ∨ allowed kind) ∧ Step kind r r'

variable {allowed : Kind → Prop} {r r' r'' : Root}

omit [ScopeJson] in
lemma Path.refl (r : Root) : Path allowed r r := Relation.ReflTransGen.refl

omit [ScopeJson] in
lemma Path.trans (h : Path allowed r r') (h' : Path allowed r' r'') : Path allowed r r'' :=
  Relation.ReflTransGen.trans h h'

omit [ScopeJson] in
lemma Path.step {kind : Kind} (h : Path allowed r r') (hkind : allowed kind)
    (hstep : Step kind r' r'') : Path allowed r r'' :=
  Relation.ReflTransGen.tail h ⟨kind, .inr hkind, hstep⟩

omit [ScopeJson] in
lemma Path.keep (h : Path allowed r r') (hstep : Step .keep r' r'') : Path allowed r r'' :=
  Relation.ReflTransGen.tail h ⟨.keep, .inl rfl, hstep⟩

omit [ScopeJson] in
lemma Path.quiet (h : Path allowed r r') (hquiet : Root.Quiet r' r'') : Path allowed r r'' := by
  rw [hquiet]
  exact h.keep (.script r' _)

omit [ScopeJson] in
lemma Path.mono {others : Kind → Prop} (h : Path allowed r r')
    (hkinds : ∀ kind, allowed kind → others kind) : Path others r r' := by
  refine Relation.ReflTransGen.mono ?_ r r' h
  rintro a b ⟨kind, hkind, hstep⟩
  exact ⟨kind, hkind.imp_right (hkinds kind), hstep⟩

/-- A workspace that a call has led to. -/
structure Reached (allowed : Kind → Prop) (w w' : Workspace) : Prop where
  path : Path allowed w.root w'.root
  space : w'.replica.space = w.replica.space
  revision : w'.replica.scopeRevision = w.replica.scopeRevision
  follows : w'.replica.evidence.Follows w'.root.chain

omit [ScopeJson] in
lemma Reached.calm {w w' w'' : Workspace} (h : Reached allowed w w') (hcalm : Calm w' w'') :
    Reached allowed w w'' :=
  ⟨h.path.quiet hcalm.root, hcalm.space.trans h.space, hcalm.revision.trans h.revision,
    hcalm.follows h.follows⟩

/-- A workspace between calls. -/
structure Sound (w : Workspace) : Prop where
  holds : ∃ shapes, Holds w.root.chain shapes
  unlocked : w.root.chain.lock ≠ .held
  follows : w.replica.evidence.Follows w.root.chain

/-- A state inside a transaction of a call. -/
structure Busy (allowed : Kind → Prop) (w : Workspace) (t : Workspace × SegmentStore) : Prop
    extends Reached allowed w t.1 where
  good : ∃ shapes, Good ⟨t.1.root.chain, t.2⟩ shapes

omit [ScopeJson] in
lemma Busy.holds {t : Workspace × SegmentStore} (h : Busy allowed w t) :
    ∃ shapes, Holds t.1.root.chain shapes := by
  obtain ⟨shapes, hgood⟩ := h.good
  exact ⟨shapes, hgood.holds⟩

omit [ScopeJson] in
lemma Busy.calm {t : Workspace × SegmentStore} {w' : Workspace} (h : Busy allowed w t)
    (hcalm : Calm t.1 w') : Busy allowed w (w', t.2) := by
  obtain ⟨shapes, hgood⟩ := h.good
  refine ⟨h.toReached.calm hcalm, shapes, ?_⟩
  show Good ⟨w'.root.chain, t.2⟩ shapes
  rwa [hcalm.chain]

omit [ScopeJson] in
/-- Calm code inside a transaction. -/
lemma wp_inside_calm {t : Workspace × SegmentStore} {m : Fallible IoError Workspace α}
    {P : α → Workspace → Prop} (h : Busy allowed w t)
    (hm : wp m (fun a w' => Calm t.1 w' ∧ P a w') (fun _ w' => Calm t.1 w') t.1) :
    wp (inside m)
      (fun a t' => Busy allowed w t' ∧ Calm t.1 t'.1 ∧ t'.2 = t.2 ∧ P a t'.1)
      (fun _ t' => Busy allowed w t') t := by
  unfold inside
  rw [wp_zoom]
  apply wp_mono hm
  · intro a w' hw'
    exact ⟨h.calm hw'.1, hw'.1, rfl, hw'.2⟩
  · intro _ w' hcalm
    exact h.calm hcalm

/-! ## Transactions -/

omit [ScopeJson] in
/-- Only the lock or the marker of the chain changed. -/
lemma Reached.withChain {w w' : Workspace} {d : Directory} (h : Reached allowed w w')
    (hsegments : d.segments = w'.root.chain.segments) :
    Reached allowed w (withChain d w') := by
  have hwrote := wrote_of_segments hsegments
  refine ⟨h.path.keep (.chain hwrote), h.space, h.revision, ?_⟩
  exact h.follows.grows hwrote.grows

/-- What a call leads to, and the state between calls. -/
structure Rests (allowed : Kind → Prop) (w w' : Workspace) : Prop
    extends Reached allowed w w', Sound w'

/-- The writer of a transaction is dropped. -/
def closed (t : Workspace × SegmentStore) : Workspace :=
  withChain (SegmentStore.close ⟨t.1.root.chain, t.2⟩) t.1

omit [ScopeJson] in
lemma Sound.closed {t : Workspace × SegmentStore}
    (hgood : ∃ shapes, Good ⟨t.1.root.chain, t.2⟩ shapes)
    (hfollows : t.1.replica.evidence.Follows t.1.root.chain) : Sound (closed t) := by
  obtain ⟨shapes, hgood⟩ := hgood
  refine ⟨⟨shapes, ?_⟩, fun hheld => (by cases hheld), ?_⟩
  · exact ⟨hgood.holds.segments, hgood.holds.valid, hgood.holds.bounded, hgood.holds.marker,
      hgood.holds.named, hgood.holds.settled⟩
  · exact hfollows.grows (.of_segments rfl)

omit [ScopeJson] in
/-- A transaction opens the writer, runs its body and drops the writer. -/
lemma wp_locked_of {body : Fallible IoError (Workspace × SegmentStore) α}
    {ok : α → Workspace → Prop} {err : IoError → Workspace → Prop} (hw : Sound w)
    (hfail : ∀ e w', Rests allowed w w' → err e w')
    (hbody : ∀ t, Busy allowed w t → t.1.root.scope = w.root.scope →
      t.1.root.revision = w.root.revision → t.1.root.chain.segments = w.root.chain.segments →
      wp body (fun a t' => ok a (closed t')) (fun e t' => err e (closed t')) t) :
    wp (locked body) ok err w := by
  obtain ⟨shapes, hshapes⟩ := hw.holds
  unfold locked
  rw [wp_bind]
  apply wp_mono (wp_pop_calm Io.opens _ {})
  swap
  · intro _ _ hfalse
    exact hfalse.elim
  intro io w₁ hcalm
  have hreached : Reached allowed w w₁ :=
    Reached.calm ⟨.refl w.root, rfl, rfl, hw.follows⟩ hcalm
  unfold wp
  rw [exec_of]
  cases hopen : SegmentStore.openInner false defaultSegmentBytes io w₁.root.chain with
  | mk result chain =>
    rw [hcalm.chain] at hopen
    rcases SegmentStore.openInner_good hshapes hw.unlocked hopen with
      ⟨store, rfl, hgood, hsegments⟩ | ⟨e, rfl, hholds, hlock, hsegments, -⟩
    · rw [← hcalm.chain] at hsegments
      have hbusy : Busy allowed w (withChain chain w₁, store) :=
        ⟨hreached.withChain hsegments, shapes, hgood⟩
      have hrun := hbody _ hbusy hcalm.scope hcalm.fence
        (by rw [← hcalm.chain]; exact hsegments)
      simp only
      cases hexec : body.exec (withChain chain w₁, store) with
      | mk result t =>
        cases result with
        | ok a =>
          have ht := wp_eq_ok hrun hexec
          exact ht
        | error e =>
          have ht := wp_eq_error hrun hexec
          exact ht
    · rw [← hcalm.chain] at hsegments
      exact hfail e _ ⟨hreached.withChain hsegments, ⟨shapes, hholds⟩, hlock⟩

omit [ScopeJson] in
/-- The rule for a transaction: what its body establishes must not depend on the writer lock. -/
lemma wp_locked {body : Fallible IoError (Workspace × SegmentStore) α} {P : α → Workspace → Prop}
    (hw : Sound w)
    (hP : ∀ a w' d, d.segments = w'.root.chain.segments → P a w' → P a (withChain d w'))
    (hbody : ∀ t, Busy allowed w t → t.1.root.scope = w.root.scope →
      t.1.root.revision = w.root.revision → t.1.root.chain.segments = w.root.chain.segments →
      wp body (fun a t' => Busy allowed w t' ∧ P a t'.1) (fun _ t' => Busy allowed w t') t) :
    wp (locked body) (fun a w' => Rests allowed w w' ∧ P a w') (fun _ w' => Rests allowed w w')
      w := by
  have hclose : ∀ t : Workspace × SegmentStore, Busy allowed w t → Rests allowed w (closed t) := by
    intro t ht
    have hsound := Sound.closed ht.good ht.follows
    exact ⟨ht.toReached.withChain rfl, hsound.holds, hsound.unlocked⟩
  apply wp_locked_of hw
  · intro _ w' hrests
    exact hrests
  · intro t ht hscope hfence hsegments
    apply wp_mono (hbody t ht hscope hfence hsegments)
    · rintro a t' ⟨ht', ha⟩
      exact ⟨hclose t' ht', hP a t'.1 _ rfl ha⟩
    · intro _ t' ht'
      exact hclose t' ht'

/-- What a page that was appended leaves behind. -/
structure Appends (t t' : Workspace × SegmentStore) (added : List Bytes) : Prop where
  root : t'.1.root = { t.1.root with chain := t'.1.root.chain, io := t'.1.root.io }
  replica : t'.1.replica = t.1.replica
  wrote : Wrote t.1.root.chain t'.1.root.chain added
  good : ∃ shapes, Good ⟨t'.1.root.chain, t'.2⟩ shapes

omit [ScopeJson] in
/-- A page is appended as a whole or not at all. -/
lemma wp_appendPage {t : Workspace × SegmentStore}
    (hgood : ∃ shapes, Good ⟨t.1.root.chain, t.2⟩ shapes) (page : Page) :
    wp (appendPage page)
      (fun _ t' => Appends t t' (page.records.map Record.data) ∧ t.2.nextSeq ≤ t'.2.nextSeq
        ∧ t'.1.root.chain.segments[t'.2.nextSeq]? ≠ none)
      (fun _ t' => Appends t t' [] ∨ Appends t t' (page.records.map Record.data)) t := by
  obtain ⟨shapes, hgood⟩ := hgood
  unfold appendPage inside onRoot
  rw [wp_bind, wp_zoom, wp_zoom]
  apply wp_mono (Root.wp_pop Io.appends _ {})
  swap
  · intro _ _ hfalse
    exact hfalse.elim
  intro io r₁ hquiet
  have hchain : r₁.chain = t.1.root.chain := by rw [hquiet]
  unfold onWriter
  rw [wp_zoom]
  have happend : ∀ result (w' : Writer),
      (SegmentStore.appendPage page io).exec ⟨r₁.chain, t.2⟩ = (result, w') →
      ∃ added, Appends t (withChain w'.directory { t.1 with root := r₁ }, w'.store)
          (added.map Record.data)
        ∧ (added = [] ∨ added = page.records) ∧ (result = .ok () → added = page.records) := by
    intro result w' hrun
    rw [hchain] at hrun
    obtain ⟨shapes', added, hgood', hextends, hadded, hok⟩ :=
      (SegmentStore.appendPage_good hgood hrun).1.outcome
    refine ⟨added, ⟨?_, rfl, ?_, shapes', hgood'⟩, hadded, hok⟩
    · show { r₁ with chain := w'.directory } = _
      rw [hquiet]
      rfl
    · exact wrote_of_extends hgood.holds hgood'.holds hextends
  apply wp_of_exec
  · intro _ w' hrun
    obtain ⟨added, happends, -, hok⟩ := happend _ w' hrun
    rw [hok rfl] at happends
    have hsome := wp_eq_ok (SegmentStore.wp_appendPage_some page io (by exact le_rfl)) hrun
    exact ⟨happends, hsome⟩
  · intro e w' hrun
    obtain ⟨added, happends, rfl | rfl, -⟩ := happend _ w' hrun
    · exact .inl happends
    · exact .inr happends

omit [ScopeJson] in
/-- A rotation leaves a segment that is not written yet. -/
lemma wp_rotate {t : Workspace × SegmentStore}
    (hgood : ∃ shapes, Good ⟨t.1.root.chain, t.2⟩ shapes) :
    wp rotate
      (fun _ t' => Appends t t' [] ∧ t'.1.root.chain = t.1.root.chain
        ∧ t'.1.root.chain.segments[t'.2.nextSeq]? = none)
      (fun _ t' => Appends t t' []) t := by
  obtain ⟨shapes, hgood⟩ := hgood
  unfold rotate inside onRoot
  rw [wp_bind, wp_zoom, wp_zoom]
  apply wp_mono (Root.wp_pop Io.rotates _ none)
  swap
  · intro _ _ hfalse
    exact hfalse.elim
  intro fault r₁ hquiet
  have hchain : r₁.chain = t.1.root.chain := by rw [hquiet]
  unfold onWriter
  rw [wp_zoom]
  have hrotate : ∀ result (w' : Writer),
      (SegmentStore.rotate fault).exec ⟨r₁.chain, t.2⟩ = (result, w') →
      Appends t (withChain w'.directory { t.1 with root := r₁ }, w'.store) []
        ∧ w'.directory = t.1.root.chain
        ∧ (result = .ok () → w'.directory.segments[w'.store.nextSeq]? = none) := by
    intro result w' hrun
    rw [hchain] at hrun
    obtain ⟨hgood', hkept, -⟩ := SegmentStore.rotate_good hgood hrun
    have hdirectory : w'.directory = t.1.root.chain := hkept.directory
    refine ⟨⟨?_, rfl, ?_, shapes, hgood'⟩, hdirectory, ?_⟩
    · show { r₁ with chain := w'.directory } = _
      rw [hquiet]
      rfl
    · exact wrote_of_segments (by
        show w'.directory.segments = _
        rw [hdirectory])
    · intro hok
      rcases SegmentStore.rotate_cases hrun with ⟨e, -, rfl, -⟩ | ⟨hnone, -, rfl⟩ |
        ⟨hsome, -, -, rfl⟩ | ⟨-, -, rfl, -⟩
      · cases hok
      · exact hnone
      · -- the next segment lies after the last one
        have hlast : ¬ t.2.nextSeq + 1 < shapes.length := by
          have hcurrent : shapes.length = t.2.nextSeq ∨ shapes.length = t.2.nextSeq + 1 :=
            hgood.current
          omega
        rw [← hgood.holds.isSome, Option.not_isSome_iff_eq_none] at hlast
        exact hlast
      · cases hok
  apply wp_of_exec
  · intro _ w' hrun
    obtain ⟨happends, hdirectory, hnone⟩ := hrotate _ w' hrun
    exact ⟨happends, hdirectory, hnone rfl⟩
  · intro e w' hrun
    exact (hrotate _ w' hrun).1

omit [ScopeJson] in
/-- A durable step that leaves the chain alone. -/
lemma Busy.root {t : Workspace × SegmentStore} {r : Root} {kind : Kind} (h : Busy allowed w t)
    (hkind : allowed kind) (hstep : Step kind t.1.root r) {r' : Root} (hquiet : Root.Quiet r r')
    (hchain : r.chain = t.1.root.chain) : Busy allowed w ({ t.1 with root := r' }, t.2) := by
  obtain ⟨shapes, hgood⟩ := h.good
  have hsame : r'.chain = t.1.root.chain := by
    rw [hquiet]
    exact hchain
  refine ⟨⟨(h.path.step hkind hstep).quiet hquiet, h.space, h.revision, ?_⟩, shapes, ?_⟩
  · show t.1.replica.evidence.Follows r'.chain
    rw [hsame]
    exact h.follows
  · show Good ⟨r'.chain, t.2⟩ shapes
    rwa [hsame]

omit [ScopeJson] in
/-- The file system moved on. -/
lemma Busy.quiet {t : Workspace × SegmentStore} {r : Root} (h : Busy allowed w t)
    (hquiet : Root.Quiet t.1.root r) : Busy allowed w ({ t.1 with root := r }, t.2) :=
  h.calm (calm_of_quiet hquiet)

omit [ScopeJson] in
/-- A page was appended. -/
lemma Busy.appends {t t' : Workspace × SegmentStore} {added : List Bytes} (h : Busy allowed w t)
    (happends : Appends t t' added)
    (hstep : Path allowed t.1.root { t.1.root with chain := t'.1.root.chain }) :
    Busy allowed w t' := by
  have hquiet : Root.Quiet { t.1.root with chain := t'.1.root.chain } t'.1.root := happends.root
  refine ⟨⟨(h.path.trans hstep).quiet hquiet, ?_, ?_, ?_⟩, happends.good⟩
  · rw [happends.replica]
    exact h.space
  · rw [happends.replica]
    exact h.revision
  · rw [happends.replica]
    exact h.follows.grows happends.wrote.grows

omit [ScopeJson] in
lemma Busy.appends_nil {t t' : Workspace × SegmentStore} (h : Busy allowed w t)
    (happends : Appends t t' []) : Busy allowed w t' :=
  h.appends happends ((Path.refl _).keep (.chain happends.wrote))

/-! ## Selecting a scope -/

omit [ScopeJson] in
/-- The boundary cuts everything off that was written before. -/
lemma wp_boundary {t : Workspace × SegmentStore} (h : Busy allowed w t) (backfill : Bool) :
    wp (boundary backfill)
      (fun _ t' => Busy allowed w t' ∧ Appends t t' []
        ∧ (backfill = false → CutsOff t'.1.root.chain t'.2.nextSeq))
      (fun _ t' => Busy allowed w t') t := by
  unfold boundary
  cases backfill with
  | true =>
    refine ⟨h, ⟨rfl, rfl, wrote_of_segments rfl, h.good⟩, fun hfalse => (by cases hfalse)⟩
  | false =>
    show wp (rotate >>= fun _ => appendPage (Page.new 0)) _ _ t
    rw [wp_bind]
    apply wp_mono (wp_rotate h.good)
    · rintro _ t₁ ⟨hrotated, hchain, hnone⟩
      have h₁ := h.appends_nil hrotated
      apply wp_mono (wp_appendPage h₁.good (Page.new 0))
      · rintro _ t₂ ⟨happends, hle, hsome⟩
        have hwrote : Wrote t₁.1.root.chain t₂.1.root.chain [] := happends.wrote
        obtain ⟨shapes₁, hgood₁⟩ := h₁.good
        obtain ⟨shapes₂, hgood₂⟩ := happends.good
        refine ⟨h₁.appends_nil happends, ⟨?_, ?_, ?_, shapes₂, hgood₂⟩, fun _ => ⟨?_, ?_⟩⟩
        · rw [happends.root, hrotated.root]
        · rw [happends.replica, hrotated.replica]
        · rw [← hchain]
          exact hwrote
        · -- the boundary page lies in the last segment
          rw [size_of_holds hgood₂.holds]
          have hlast : t₂.2.nextSeq < shapes₂.length :=
            (hgood₂.holds.isSome _).mp (Option.isSome_iff_ne_none.mpr hsome)
          have hcurrent : shapes₂.length = t₂.2.nextSeq ∨ shapes₂.length = t₂.2.nextSeq + 1 :=
            hgood₂.current
          omega
        · -- and all records before it
          intro r hr
          rw [hwrote.history_eq] at hr
          have hlt := segment_lt_of_mem hr
          rw [size_of_holds hgood₁.holds] at hlt
          have hfree : ¬ t₁.2.nextSeq < shapes₁.length := by
            rw [← hgood₁.holds.isSome, Option.not_isSome_iff_eq_none]
            exact hnone
          omega
      · rintro _ t₂ (happends | happends)
        · exact h₁.appends_nil happends
        · exact h₁.appends_nil happends
    · intro _ t₁ hrotated
      exact h.appends_nil hrotated

/-- A scope was selected and is in force. -/
structure Chose (backfill : Bool) (w : Workspace) (selected : Scope) (w' : Workspace) : Prop where
  file : w'.root.scope = some selected
  fence : w'.root.revision = some selected.revision
  selected : ∃ scope segment, w.root.scope = some scope ∧ Root.Selected scope selected segment
    ∧ if backfill then segment = none else ∃ n, segment = some n ∧ CutsOff w'.root.chain n
  history : history w'.root.chain = history w.root.chain

/-- The kinds of steps of a selection. -/
def Selecting (backfill : Bool) (kind : Kind) : Prop := kind = .fence ∨ kind = .select backfill

lemma wp_selectScope {t : Workspace × SegmentStore} {backfill : Bool}
    (h : Busy (Selecting backfill) w t) (hscope : t.1.root.scope = w.root.scope)
    (hhistory : history t.1.root.chain = history w.root.chain) :
    wp (selectScope backfill)
      (fun selected t' => Busy (Selecting backfill) w t' ∧ Chose backfill w selected t'.1)
      (fun _ t' => Busy (Selecting backfill) w t') t := by
  unfold selectScope
  rw [wp_bind]
  have hread : wp (onRoot Root.readScope)
      (fun scope w' => Calm t.1 w' ∧ t.1.root.scope = some scope) (fun _ w' => Calm t.1 w') t.1 :=
    wp_onRoot_calm Root.wp_readScope
  apply wp_mono (wp_inside_calm h hread)
  swap
  · exact fun _ _ h' => h'
  rintro scope t₁ ⟨h₁, hcalm₁, -, hfile⟩
  rw [wp_bind]
  have hcheck : wp (checkSpace scope) (fun _ w' => Calm t₁.1 w' ∧ w' = t₁.1)
      (fun _ w' => Calm t₁.1 w') t₁.1 := by
    apply wp_mono (wp_checkSpace scope)
    · rintro _ w' ⟨rfl, -⟩
      exact ⟨.refl _, rfl⟩
    · rintro _ w' rfl
      exact .refl _
  apply wp_mono (wp_inside_calm h₁ hcheck)
  swap
  · exact fun _ _ h' => h'
  rintro _ t₂ ⟨h₂, hcalm₂, -, -⟩
  rw [wp_bind]
  apply wp_mono (wp_boundary h₂ backfill)
  swap
  · exact fun _ _ h' => h'
  rintro _ t₃ ⟨h₃, happends, hcut⟩
  have hfile₃ : t₃.1.root.scope = some scope := by
    rw [happends.root]
    show t₂.1.root.scope = some scope
    rw [hcalm₂.scope, hcalm₁.scope, hfile]
  have hhistory₃ : history t₃.1.root.chain = history w.root.chain := by
    rw [happends.wrote.history_eq, hcalm₂.chain, hcalm₁.chain, hhistory]
  rw [wp_bind, wp_get, wp_bind]
  unfold inside onRoot
  rw [wp_zoom, wp_zoom]
  set segment := if backfill then none else some t₃.2.nextSeq with hsegment
  have hfenced : ∀ r, Root.Quiet { t₃.1.root with revision := some (scope.revision + 1) } r →
      Busy (Selecting backfill) w ({ t₃.1 with root := r }, t₃.2) := by
    intro r hr
    exact h₃.root (.inl rfl) (.fence hfile₃) hr rfl
  apply wp_mono (Root.wp_select scope segment)
  swap
  · rintro _ r (hr | hr)
    · exact h₃.quiet hr
    · exact hfenced r hr
  rintro selected r₄ ⟨hr₄, hselected⟩
  have h₄ := hfenced r₄ hr₄
  have hcutoff : if backfill then segment = none
      else ∃ n, segment = some n ∧ CutsOff r₄.chain n := by
    have hchain : r₄.chain = t₃.1.root.chain := by rw [hr₄]
    rw [hchain]
    cases backfill with
    | true => exact hsegment
    | false => exact ⟨t₃.2.nextSeq, hsegment, hcut rfl⟩
  have hfile₄ : r₄.scope = some scope := by
    rw [hr₄]
    exact hfile₃
  have hfence₄ : r₄.revision = some (scope.revision + 1) := by rw [hr₄]
  rw [wp_bind, wp_zoom, wp_zoom]
  have hsaved : ∀ r, Root.Quiet { r₄ with scope := some selected } r →
      Busy (Selecting backfill) w ({ t₃.1 with root := r }, t₃.2) := by
    intro r hr
    exact h₄.root (.inr rfl) (.select hfile₄ hfence₄ hselected hcutoff) hr rfl
  apply wp_mono (Root.wp_saveScope selected)
  · intro _ r hr
    refine ⟨hsaved r hr, ?_, ?_, ⟨scope, segment, ?_, hselected, ?_⟩, ?_⟩
    · show r.scope = some selected
      rw [hr]
    · show r.revision = some selected.revision
      obtain ⟨now, rfl⟩ := hselected
      rw [hr]
      exact hfence₄
    · rw [← hscope, hfile]
    · have hchain : r.chain = r₄.chain := by rw [hr]
      show if backfill then segment = none else ∃ n, segment = some n ∧ CutsOff r.chain n
      rw [hchain]
      exact hcutoff
    · show history r.chain = history w.root.chain
      rw [hr, ← hhistory₃]
      show history r₄.chain = _
      rw [hr₄]
  · rintro _ r (hr | hr)
    · exact h₄.quiet hr
    · exact hsaved r hr

/-- The replica takes over the revision that it selected. -/
lemma wp_setSharingScope (hw : Sound w) (backfill : Bool) :
    wp (setSharingScope backfill)
      (fun summary w' => Path (Selecting backfill) w.root w'.root ∧ Sound w'
        ∧ w'.replica.space = w.replica.space
        ∧ ∃ selected, Chose backfill w selected w' ∧ summary = selected.summary
          ∧ w'.replica.scopeRevision = selected.revision)
      (fun _ w' => Rests (Selecting backfill) w w') w := by
  unfold setSharingScope
  rw [wp_bind]
  apply wp_mono (wp_locked (P := Chose backfill w) hw _ _)
  · rintro selected w' ⟨hrests, hchose⟩
    simp only [wp_bind, wp_modify, wp_pure]
    refine ⟨hrests.path, ⟨hrests.holds, hrests.unlocked, hrests.follows⟩, hrests.space, selected,
      ⟨hchose.file, hchose.fence, hchose.selected, hchose.history⟩, rfl, rfl⟩
  · exact fun _ _ h => h
  · intro selected w' d hsegments hchose
    have hwrote := wrote_of_segments hsegments
    obtain ⟨scope, segment, hscope, hselected, hcutoff⟩ := hchose.selected
    refine ⟨hchose.file, hchose.fence, ⟨scope, segment, hscope, hselected, ?_⟩, ?_⟩
    · cases backfill with
      | true => exact hcutoff
      | false =>
        obtain ⟨n, rfl, hcuts⟩ := hcutoff
        refine ⟨n, rfl, ?_, ?_⟩
        · show n + 1 = d.segments.size
          rw [hsegments]
          exact hcuts.last
        · intro r hr
          apply hcuts.before
          rw [← hwrote.history_eq]
          exact hr
    · rw [← hchose.history]
      exact hwrote.history_eq
  · intro t ht hscope _ hsegments
    apply wp_selectScope ht hscope
    rw [(wrote_of_segments hsegments).history_eq]

/-! ## A replica is a lawful storage -/

omit [Checksum] [ScopeJson] in
/-- What the local snapshot holds after a receipt. -/
lemma record_receivedInto {records : List (RecordKey × Bytes)} {scope : Scope} {snapshot : Snapshot}
    {key : RecordKey} {bytes : Bytes}
    (h : (receivedInto records scope snapshot).record key = some bytes) :
    snapshot.record key = some bytes
      ∨ ((key, bytes) ∈ records ∧ RecordKey.fromEncoded bytes = .ok key) := by
  have hfold : ∀ snapshot : Snapshot,
      (records.foldl Snapshot.insertValid snapshot).record key = some bytes →
        snapshot.record key = some bytes
          ∨ ((key, bytes) ∈ records ∧ RecordKey.fromEncoded bytes = .ok key) := by
    clear h
    induction records with
    | nil => exact fun _ h => .inl h
    | cons record records ih =>
      intro snapshot h
      rw [List.foldl_cons] at h
      rcases ih _ h with hinserted | ⟨hmem, hderived⟩
      · unfold Snapshot.insertValid at hinserted
        split at hinserted
        · next hvalid =>
          rw [Snapshot.record_insert] at hinserted
          split at hinserted
          · next hsame =>
            cases hinserted
            rw [hsame]
            exact .inr ⟨List.mem_cons_self, hvalid⟩
          · exact .inl hinserted
        · exact .inl hinserted
      · exact .inr ⟨List.mem_cons_of_mem _ hmem, hderived⟩
  exact hfold snapshot h

omit [Checksum] [ScopeJson] in
/-- What was there stays, and the valid records of a receipt are added. -/
lemma contains_receivedInto {records : List (RecordKey × Bytes)} {scope : Scope}
    {snapshot : Snapshot} (hvalid : ∀ record ∈ records, RecordKey.fromEncoded record.2 = .ok record.1)
    {key : RecordKey} (h : snapshot.contains key = true ∨ key ∈ records.map Prod.fst) :
    (receivedInto records scope snapshot).contains key = true := by
  suffices hfold : (records.foldl Snapshot.insertValid snapshot).contains key = true from hfold
  induction records generalizing snapshot with
  | nil =>
    rcases h with h | h
    · exact h
    · cases h
  | cons record records ih =>
    rw [List.foldl_cons]
    apply ih fun other hother => hvalid other (List.mem_cons_of_mem _ hother)
    have hinsert : snapshot.insertValid record
        = snapshot.insert record.1 record.2 (hvalid record List.mem_cons_self) :=
      dif_pos (hvalid record List.mem_cons_self)
    rw [hinsert]
    by_cases hsame : key = record.1
    · left
      rw [Snapshot.contains_iff]
      exact ⟨record.2, by rw [Snapshot.record_insert, if_pos hsame]⟩
    · rcases h with h | h
      · left
        rw [Snapshot.contains_iff] at h ⊢
        obtain ⟨bytes, hbytes⟩ := h
        exact ⟨bytes, by rw [Snapshot.record_insert, if_neg hsame, hbytes]⟩
      · exact .inr ((List.mem_cons.mp h).resolve_left hsame)

section Storage

variable [ContentSchema Op]

omit [Checksum] [ScopeJson] in
lemma exec_references_eq_ok {snapshot : Snapshot} {key : RecordKey} {w w' : Workspace}
    {found : ExtTreeMap Digest (List ℕ)}
    (h : (references snapshot key).exec w = (.ok found, w')) :
    ∃ bytes op, snapshot.record key = some bytes ∧ Schema.decodeOp bytes = .ok op
      ∧ found = ContentSchema.references op := by
  unfold references at h
  obtain ⟨_, w₁, -, hrest⟩ := exec_bind_eq_ok.mp h
  cases hrecord : snapshot.record key with
  | none =>
    rw [hrecord] at hrest
    cases hrest
  | some bytes =>
    rw [hrecord] at hrest
    cases hop : (Schema.decodeOp bytes : Except PostcardError Op) with
    | error error =>
      simp only [recordReferences, hop] at hrest
      cases hrest
    | ok op =>
      simp only [recordReferences, hop] at hrest
      cases hrest
      exact ⟨bytes, op, rfl, hop, rfl⟩

/-- A receipt that succeeds was validated, and its records are taken into the snapshot. -/
lemma exec_ingestRecords_eq_ok {records : List (RecordKey × Bytes)} {w w' : Workspace}
    {snapshot snapshot' : Snapshot}
    (h : (ReplicationStorage.ingestRecords records).exec (w, snapshot) = (.ok (), w', snapshot')) :
    validateRecords records = .ok () ∧ ∃ scope, snapshot' = receivedInto records scope snapshot := by
  generalize hrun : (ingestInto records (some snapshot)).exec w = run
  obtain ⟨result, w₁⟩ := run
  simp only [ReplicationStorage.ingestRecords, exec_of, hrun] at h
  cases result with
  | error error => cases h
  | ok scope =>
    cases h
    refine ⟨?_, scope, rfl⟩
    unfold ingestInto at hrun
    obtain ⟨_, w₂, hvalid, -⟩ := exec_bind_eq_ok.mp hrun
    exact congrArg Prod.fst hvalid

/-- A replica honours the storage contract of a session. -/
instance lawfulStorage : LawfulStorage Workspace where
  ingestRecords_contains records w w' snapshot snapshot' h key hkey := by
    obtain ⟨hvalid, scope, rfl⟩ := exec_ingestRecords_eq_ok h
    exact contains_receivedInto (fun record hrecord => validateRecords_derived hvalid hrecord) hkey
  ingestRecords_record records w w' snapshot snapshot' h key bytes hrecord := by
    obtain ⟨-, scope, rfl⟩ := exec_ingestRecords_eq_ok h
    exact (record_receivedInto hrecord).imp_right And.left
  blobHashes_eq snapshot key w w' hashes h := by
    have h' : (blobHashes snapshot key).exec w = (.ok hashes, w') := h
    unfold blobHashes at h'
    obtain ⟨found, w₁, hfound, hhashes⟩ := exec_bind_eq_ok.mp h'
    obtain ⟨bytes, op, hrecord, hop, rfl⟩ := exec_references_eq_ok hfound
    cases hhashes
    refine ⟨bytes, hrecord, fun hash => ?_⟩
    rw [ExtTreeSet.mem_ofList, List.contains_iff_mem, ExtTreeMap.mem_keys]
    constructor
    · intro hmem
      exact ⟨op, hop, hmem⟩
    · rintro ⟨op', hop', hmem⟩
      rw [hop] at hop'
      cases hop'
      exact hmem
  ingestBlob_hash key hash bytes w w' h := by
    have h' : (ingestBlob key hash bytes).exec w = (.ok (), w') := h
    unfold ingestBlob at h'
    by_cases hbad : maxObjectBytes < bytes.length ∨ Blake3.hash bytes ≠ hash
    · rw [if_pos hbad] at h'
      cases h'
    · exact not_not.mp (not_or.mp hbad).2

end Storage

end Replica
end EditChain.Sync
