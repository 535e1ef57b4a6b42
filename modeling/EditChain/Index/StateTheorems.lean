import EditChain.Index.Chain
import EditChain.Index.ContentTheorems
import EditChain.Index.FrontierTheorems

/-!
# The derived state follows the chain

The records and the content dependencies of a state are those of the accepted operations of its
chain, before and after every refresh. A refresh reports exactly how the accepted set and the
availability of the content changed.
-/

namespace EditChain.Index

open Core Fallible Store
open Std (ExtTreeMap ExtTreeSet TransOrd LawfulEqOrd)

variable {Op Ref Key : Type} [Schema Op] [Checksum] [IndexSchema Op Ref Key] [DecidableEq Key]
  [Ord Ref] [TransOrd Ref] [LawfulEqOrd Ref] [DecidableEq Ref]

/-- The accepted operations of a chain with their locations. -/
abbrev Accepted (Op : Type) := OpId → Option (OpRecordLocation × Op)

/-- What a chain accepts. -/
def acceptedBy (chain : IndexedChain Op) : Accepted Op := fun id =>
  chain.entries[id]?.bind fun entry => entry.accepted.map fun op => (entry.location, op)

omit [Schema Op] [Checksum] in
lemma acceptedBy_eq_some {chain : IndexedChain Op} {id : OpId} {location : OpRecordLocation}
    {op : Op} :
    acceptedBy chain id = some (location, op) ↔ chain.entries[id]? = some ⟨location, some op⟩ := by
  unfold acceptedBy
  cases hentry : chain.entries[id]? with
  | none => simp
  | some entry =>
    obtain ⟨place, accepted⟩ := entry
    cases accepted with
    | none => simp
    | some found => simp

omit [Schema Op] [Checksum] in
lemma get_eq_acceptedBy (chain : IndexedChain Op) (id : OpId) :
    chain.get id = (acceptedBy chain id).map Prod.snd := by
  unfold IndexedChain.get acceptedBy
  cases chain.entries[id]? with
  | none => rfl
  | some entry => simp [Function.comp_def]

/-- Every accepted operation can be read back under its own identity. -/
def Backed (d : Directory) (accepted : Accepted Op) : Prop :=
  ∀ id location op, accepted id = some (location, op) →
    readOpAt d location = .ok op ∧ Schema.id op = id

lemma Backed.grows {d d' : Directory} {accepted : Accepted Op} (h : Backed d accepted)
    (hgrows : d.Grows d') : Backed d' accepted := by
  intro id location op hsome
  obtain ⟨hread, hid⟩ := h id location op hsome
  exact ⟨readOpAt_grows hgrows hread, hid⟩

/-- A delta keeps the accepted operations readable. -/
lemma Backed.tracks {d : Directory} {delta : ChainDelta Op} {before after : IndexedChain Op}
    (h : Backed d (acceptedBy before)) (htracks : delta.Tracks d before after) :
    Backed d (acceptedBy after) := by
  intro id location op hsome
  rw [acceptedBy_eq_some] at hsome
  by_cases hremoved : id ∈ delta.removed
  · obtain ⟨entry, hentry, hnone⟩ := htracks.removed id hremoved
    rw [hsome] at hentry
    cases hentry
    cases hnone
  · cases hadded : delta.added[id]? with
    | some found =>
      obtain ⟨-, hafter, hread, hid⟩ := htracks.added id found.1 found.2 hadded
      rw [hsome] at hafter
      cases hafter
      exact ⟨hread, hid⟩
    | none =>
      rw [htracks.kept id hremoved hadded] at hsome
      exact h id location op (acceptedBy_eq_some.mpr hsome)

/-! ## What a delta adds -/

/-- What a delta adds is new, and is accepted afterwards. -/
lemma mem_added {d : Directory} {delta : ChainDelta Op} {before after : IndexedChain Op}
    (htracks : delta.Tracks d before after) {p : Op × OpRecordLocation}
    (hp : p ∈ delta.added.toList.map Prod.snd) :
    acceptedBy before (Schema.id p.1) = none
      ∧ acceptedBy after (Schema.id p.1) = some (p.2, p.1) := by
  obtain ⟨⟨id, op, location⟩, hmem, rfl⟩ := List.mem_map.mp hp
  rw [ExtTreeMap.mem_toList_iff_getElem?_eq_some] at hmem
  obtain ⟨hnew, hafter, -, hid⟩ := htracks.added id op location hmem
  subst hid
  refine ⟨?_, acceptedBy_eq_some.mpr hafter⟩
  unfold acceptedBy
  rw [hnew]
  rfl

lemma added_nodup {d : Directory} {delta : ChainDelta Op} {before after : IndexedChain Op}
    (htracks : delta.Tracks d before after) :
    ((delta.added.toList.map Prod.snd).map fun p => Schema.id p.1).Nodup := by
  have heq : (delta.added.toList.map Prod.snd).map (fun p => Schema.id p.1) = delta.added.keys := by
    rw [← ExtTreeMap.map_fst_toList_eq_keys, List.map_map]
    apply List.map_congr_left
    intro r hr
    obtain ⟨id, op, location⟩ := r
    rw [ExtTreeMap.mem_toList_iff_getElem?_eq_some] at hr
    exact (htracks.added id op location hr).2.2.2
  rw [heq]
  exact ExtTreeMap.nodup_keys

/-- The operations that were kept, together with those that were added, are those of the chain after
a delta. -/
lemma target_eq {d : Directory} {delta : ChainDelta Op} {before after : IndexedChain Op}
    {target : Accepted Op}
    (htracks : delta.Tracks d before after)
    (hin : ∀ p ∈ delta.added.toList.map Prod.snd, target (Schema.id p.1) = some (p.2, p.1))
    (hout : ∀ id, (∀ p ∈ delta.added.toList.map Prod.snd, Schema.id p.1 ≠ id) →
      target id = if id ∈ delta.removed.toList then none else acceptedBy before id) :
    target = acceptedBy after := by
  funext id
  cases hadded : delta.added[id]? with
  | some found =>
    obtain ⟨op, location⟩ := found
    have hmem : (op, location) ∈ delta.added.toList.map Prod.snd :=
      List.mem_map.mpr ⟨(id, op, location),
        ExtTreeMap.mem_toList_iff_getElem?_eq_some.mpr hadded, rfl⟩
    obtain ⟨-, -, -, hid⟩ := htracks.added id op location hadded
    have hafter := (mem_added htracks hmem).2
    have htarget := hin _ hmem
    dsimp only at hafter htarget
    rw [hid] at hafter htarget
    rw [htarget, hafter]
  | none =>
    have hnone : ∀ p ∈ delta.added.toList.map Prod.snd, Schema.id p.1 ≠ id := by
      intro p hp heq
      obtain ⟨⟨key, op, location⟩, hmem, rfl⟩ := List.mem_map.mp hp
      rw [ExtTreeMap.mem_toList_iff_getElem?_eq_some] at hmem
      have hid := (htracks.added key op location hmem).2.2.2
      dsimp only at heq
      rw [hid] at heq
      rw [heq, hadded] at hmem
      cases hmem
    rw [hout id hnone]
    simp only [ExtTreeSet.mem_toList]
    by_cases hremoved : id ∈ delta.removed
    · obtain ⟨entry, hentry, hquarantined⟩ := htracks.removed id hremoved
      rw [if_pos hremoved]
      unfold acceptedBy
      rw [hentry, Option.bind_some, hquarantined]
      rfl
    · rw [if_neg hremoved]
      unfold acceptedBy
      rw [htracks.kept id hremoved hadded]

namespace State

variable {d : Directory} {accepted : Accepted Op} {state state' : State Op Ref Key}

/-- The records and the content dependencies of a state are those of some operations. -/
structure Derived (state : State Op Ref Key) (accepted : Accepted Op) : Prop where
  records : ∀ id : OpId, state.records[id]? = (accepted id).map Prod.fst
  owns : ∀ reference id, state.content.Owns reference id
    ↔ ∃ location op, accepted id = some (location, op) ∧ reference ∈ IndexSchema.references op
  owned : state.content.Owned

omit [Schema Op] [LawfulEqOrd Ref] [DecidableEq Ref] [DecidableEq Key] [Checksum] in
lemma Derived.mem_accepted (h : state.Derived accepted) (id : OpId) :
    id ∈ state.accepted ↔ (accepted id).isSome := by
  show id ∈ state.records ↔ _
  rw [ExtTreeMap.mem_iff_isSome_getElem?, h.records, Option.isSome_map]

/-! ## Retracting -/

/-- What is left of the content keeps its availability. -/
def Keeps (before after : ContentIndex Ref) : Prop :=
  ∀ reference id, after.Owns reference id →
    before.Owns reference id ∧ after.status reference = before.status reference

omit [LawfulEqOrd Ref] [DecidableEq Ref] [Checksum] in
lemma Keeps.trans {a b c : ContentIndex Ref} (hab : Keeps a b) (hbc : Keeps b c) : Keeps a c := by
  intro reference id h
  obtain ⟨hmiddle, hstatus⟩ := hbc reference id h
  obtain ⟨hfirst, hstatus'⟩ := hab reference id hmiddle
  exact ⟨hfirst, hstatus.trans hstatus'⟩

omit [IndexSchema Op Ref Key] [Schema Op] [DecidableEq Key] [Checksum] in
/-- One owner is removed from several references. -/
lemma foldl_remove_spec (references : List Ref) (owner : OpId) (index : ContentIndex Ref)
    (howned : index.Owned) :
    (∀ reference id,
      (references.foldl (fun content reference => content.remove reference owner) index).Owns
        reference id ↔ index.Owns reference id ∧ ¬ (reference ∈ references ∧ owner = id))
      ∧ Keeps index (references.foldl (fun content reference => content.remove reference owner)
        index)
      ∧ (references.foldl (fun content reference => content.remove reference owner) index).Owned
    := by
  induction references generalizing index with
  | nil => exact ⟨fun _ _ => by simp, fun _ _ h => ⟨h, rfl⟩, howned⟩
  | cons first rest ih =>
    obtain ⟨howns, hkeeps, hrest⟩ := ih (index.remove first owner) (howned.remove first owner)
    have hfirst : Keeps index (index.remove first owner) := by
      intro reference id h
      exact ⟨((ContentIndex.owns_remove ..).mp h).1, ContentIndex.status_remove h⟩
    refine ⟨fun reference id => ?_, hfirst.trans hkeeps, hrest⟩
    rw [List.foldl_cons, howns, ContentIndex.owns_remove, List.mem_cons, eq_comm (a := first)]
    tauto

omit [Checksum] in
/-- One operation is retracted. -/
lemma Derived.remove (h : state.Derived accepted) {id : OpId} {location : OpRecordLocation}
    {op : Op} (hsome : accepted id = some (location, op)) (hid : Schema.id op = id) :
    ({ state with records := state.records.erase id }.remove op).Derived
        (Function.update accepted id none)
      ∧ Keeps state.content ({ state with records := state.records.erase id }.remove op).content
    := by
  obtain ⟨howns, hkeeps, howned⟩ := foldl_remove_spec (IndexSchema.references op) (Schema.id op)
    state.content h.owned
  refine ⟨⟨fun other => ?_, fun reference other => ?_, howned⟩, hkeeps⟩
  · show (state.records.erase id)[other]? = _
    rw [ExtTreeMap.getElem?_erase]
    by_cases hsame : id = other
    · subst hsame
      simp
    · rw [Function.update_of_ne (Ne.symm hsame), ← h.records other, if_neg (by simpa using hsame)]
  · refine (howns reference other).trans ?_
    rw [h.owns, hid]
    by_cases hsame : id = other
    · subst hsame
      simp [hsome]
    · rw [Function.update_of_ne (Ne.symm hsame)]
      simp [hsame]

/-- Several identities are retracted. -/
lemma Derived.retract {ids : List OpId} (h : state.Derived accepted) (hbacked : Backed d accepted)
    (hretract : state.retract d ids = .ok state') :
    state'.Derived (fun id => if id ∈ ids then none else accepted id)
      ∧ Keeps state.content state'.content ∧ state'.changes = state.changes
      ∧ state'.tail = state.tail := by
  induction ids generalizing state accepted with
  | nil =>
    cases hretract
    exact ⟨by simpa using h, fun _ _ h => ⟨h, rfl⟩, rfl, rfl⟩
  | cons id ids ih =>
    rw [State.retract] at hretract
    cases hrecord : state.records[id]? with
    | none =>
      rw [hrecord] at hretract
      have hnone : accepted id = none := by
        rw [h.records, Option.map_eq_none_iff] at hrecord
        exact hrecord
      obtain ⟨hrest, hsame⟩ := ih h hbacked hretract
      refine ⟨?_, hsame⟩
      have heq : (fun other => if other ∈ id :: ids then none else accepted other)
          = fun other => if other ∈ ids then none else accepted other := by
        funext other
        by_cases hother : other = id
        · subst hother
          simp [hnone]
        · simp [hother]
      rw [heq]
      exact hrest
    | some location =>
      rw [hrecord] at hretract
      obtain ⟨op, hread, hretract⟩ := bind_eq_ok.mp hretract
      rw [h.records, Option.map_eq_some_iff] at hrecord
      obtain ⟨⟨place, found⟩, haccepted, rfl⟩ := hrecord
      obtain ⟨hback, hid⟩ := hbacked id place found haccepted
      obtain rfl : found = op := Except.ok.inj (hback.symm.trans hread)
      obtain ⟨hone, hkeeps⟩ := h.remove haccepted hid
      have hbacked' : Backed d (Function.update accepted id none) := by
        intro other at' op' hother
        by_cases hsame : other = id
        · subst hsame
          simp at hother
        · rw [Function.update_of_ne hsame] at hother
          exact hbacked other at' op' hother
      obtain ⟨hrest, hkeeps', hchanges, htail⟩ := ih hone hbacked' hretract
      refine ⟨?_, hkeeps.trans hkeeps', hchanges, htail⟩
      have heq : (fun other => if other ∈ id :: ids then none else accepted other)
          = fun other => if other ∈ ids then none else Function.update accepted id none other := by
        funext other
        by_cases hother : other = id
        · subst hother
          simp
        · simp [hother]
      rw [heq]
      exact hrest

/-! ## Adding -/

variable {σ : Type} {source : Ref → Fallible IoError σ ContentState} {s s' : σ}

/-- What is indexed keeps its availability. -/
def Extends (before after : ContentIndex Ref) : Prop :=
  ∀ reference, (before.status reference).isSome → after.status reference = before.status reference

omit [LawfulEqOrd Ref] [DecidableEq Ref] [Checksum] in
lemma Extends.trans {a b c : ContentIndex Ref} (hab : Extends a b) (hbc : Extends b c) :
    Extends a c := by
  intro reference hsome
  have hfirst := hab reference hsome
  rw [hbc reference (by rw [hfirst]; exact hsome), hfirst]

omit [IndexSchema Op Ref Key] [Schema Op] [DecidableEq Key] [Checksum] in
/-- One owner is added to several references. -/
lemma addContent_spec {references : List Ref} {owner : OpId} {index index' : ContentIndex Ref}
    {reads reads' : ℕ} (howned : index.Owned)
    (h : (addContent source owner references index reads).exec s = (.ok (index', reads'), s')) :
    (∀ reference id, index'.Owns reference id
        ↔ index.Owns reference id ∨ (reference ∈ references ∧ owner = id))
      ∧ Extends index index' ∧ index'.Owned := by
  induction references generalizing index reads s with
  | nil =>
    cases h
    exact ⟨fun _ _ => by simp, fun _ _ => rfl, howned⟩
  | cons first rest ih =>
    rw [addContent] at h
    obtain ⟨⟨middle, reads₁⟩, s₁, hadd, h⟩ := exec_bind_eq_ok.mp h
    obtain ⟨howns, hextends, hrest⟩ := ih (howned.add hadd) h
    have hfirst : Extends index middle := fun reference hsome => ContentIndex.status_add hadd hsome
    refine ⟨fun reference id => ?_, hfirst.trans hextends, hrest⟩
    rw [howns, ContentIndex.owns_add hadd, List.mem_cons, eq_comm (a := first)]
    tauto

omit [Checksum] in
/-- One operation is accepted. -/
lemma Derived.add (h : state.Derived accepted) {op : Op} {location : OpRecordLocation}
    (hnew : accepted (Schema.id op) = none) {reads reads' : ℕ}
    (hadd : (state.add source op location reads).exec s = (.ok (state', reads'), s')) :
    state'.Derived (Function.update accepted (Schema.id op) (some (location, op)))
      ∧ Extends state.content state'.content ∧ state'.changes = state.changes
      ∧ state'.tail = state.tail := by
  unfold State.add at hadd
  obtain ⟨⟨content, reads₁⟩, s₁, hcontent, hadd⟩ := exec_bind_eq_ok.mp hadd
  cases hadd
  obtain ⟨howns, hextends, howned⟩ := addContent_spec h.owned hcontent
  refine ⟨⟨fun other => ?_, fun reference other => ?_, howned⟩, hextends, rfl, rfl⟩
  · show (state.records.insert (Schema.id op) location)[other]? = _
    rw [ExtTreeMap.getElem?_insert]
    by_cases hsame : Schema.id op = other
    · subst hsame
      simp
    · rw [Function.update_of_ne (Ne.symm hsame), ← h.records other, if_neg (by simpa using hsame)]
  · refine (howns reference other).trans ?_
    rw [h.owns]
    by_cases hsame : Schema.id op = other
    · subst hsame
      simp [hnew]
    · rw [Function.update_of_ne (Ne.symm hsame)]
      simp [hsame]

omit [Checksum] in
/-- Several operations are accepted. -/
lemma Derived.addAll {operations : List (Op × OpRecordLocation)} (h : state.Derived accepted)
    (hnodup : (operations.map fun p => Schema.id p.1).Nodup)
    (hnew : ∀ p ∈ operations, accepted (Schema.id p.1) = none) {reads reads' : ℕ}
    (hadd : (addAll source operations state reads).exec s = (.ok (state', reads'), s')) :
    (∃ target, state'.Derived target
        ∧ (∀ p ∈ operations, target (Schema.id p.1) = some (p.2, p.1))
        ∧ ∀ id, (∀ p ∈ operations, Schema.id p.1 ≠ id) → target id = accepted id)
      ∧ Extends state.content state'.content ∧ state'.changes = state.changes
      ∧ state'.tail = state.tail := by
  induction operations generalizing state accepted reads s with
  | nil =>
    cases hadd
    exact ⟨⟨accepted, h, by simp, fun _ _ => rfl⟩, fun _ _ => rfl, rfl, rfl⟩
  | cons first rest ih =>
    obtain ⟨op, location⟩ := first
    rw [State.addAll] at hadd
    obtain ⟨⟨middle, reads₁⟩, s₁, hone, hadd⟩ := exec_bind_eq_ok.mp hadd
    rw [List.map_cons, List.nodup_cons] at hnodup
    obtain ⟨hfresh, hnodup⟩ := hnodup
    have hother : ∀ p ∈ rest, Schema.id p.1 ≠ Schema.id op := by
      intro p hp heq
      exact hfresh (List.mem_map.mpr ⟨p, hp, heq⟩)
    obtain ⟨hderived, hextends, hchanges, htail⟩ :=
      h.add (hnew (op, location) (List.mem_cons_self ..)) hone
    obtain ⟨⟨target, htarget, hin, hout⟩, hextends', hchanges', htail'⟩ :=
      ih hderived hnodup (fun p hp => by
        rw [Function.update_of_ne (hother p hp)]
        exact hnew p (List.mem_cons_of_mem _ hp)) hadd
    refine ⟨⟨target, htarget, fun p hp => ?_, fun id hid => ?_⟩, hextends.trans hextends',
      hchanges'.trans hchanges, htail'.trans htail⟩
    · rcases List.mem_cons.mp hp with rfl | hp
      · rw [hout _ hother, Function.update_self]
      · exact hin p hp
    · rw [hout id fun p hp => hid p (List.mem_cons_of_mem _ hp),
        Function.update_of_ne (Ne.symm (hid (op, location) (List.mem_cons_self ..)))]

/-! ## Refreshing -/

omit [DecidableEq Key] [TransOrd Ref] [LawfulEqOrd Ref] [DecidableEq Ref] in
/-- What the conflicts are remembered for does not touch the rest. -/
lemma rememberConflicts_frame {locations : List OpRecordLocation}
    (h : state.rememberConflicts d locations = .ok state') :
    state'.records = state.records ∧ state'.content = state.content
      ∧ state'.changes = state.changes ∧ state'.tail = state.tail := by
  induction locations generalizing state with
  | nil =>
    cases h
    exact ⟨rfl, rfl, rfl, rfl⟩
  | cons location rest ih =>
    rw [rememberConflicts] at h
    obtain ⟨op, -, h⟩ := bind_eq_ok.mp h
    have hrest := ih h
    exact hrest

omit [Schema Op] [Checksum] [DecidableEq Key] [LawfulEqOrd Ref] [DecidableEq Ref] in
/-- Only the records and the content matter. -/
lemma Derived.of_eq (h : state.Derived accepted) (hrecords : state'.records = state.records)
    (hcontent : state'.content = state.content) : state'.Derived accepted := by
  refine ⟨?_, ?_, ?_⟩
  · rw [hrecords]
    exact h.records
  · rw [hcontent]
    exact h.owns
  · rw [hcontent]
    exact h.owned

/-- Applying a delta derives the state of the chain after it. What it reports as changed are, apart
from what was added or removed, the operations with a reference whose availability changed. -/
lemma Derived.apply {delta : ChainDelta Op} {before : IndexedChain Op} {changed : ExtTreeSet OpId}
    {reads reads' : ℕ} (h : state.Derived (acceptedBy before))
    (hbacked : Backed d (acceptedBy before)) (htracks : delta.Tracks d before state.tail.chain)
    (hexec : (State.apply source d delta state reads).exec s
      = (.ok (state', changed, reads'), s')) :
    state'.Derived (acceptedBy state.tail.chain)
      ∧ (∀ id, id ∉ delta.removed → delta.added[id]? = none → (id ∈ changed
        ↔ ∃ location op, acceptedBy before id = some (location, op)
          ∧ ∃ reference ∈ IndexSchema.references op,
            state'.content.status reference ≠ state.content.status reference))
      ∧ state'.changes = state.changes ∧ state'.tail = state.tail := by
  unfold State.apply at hexec
  have hstart : ∀ ids, ({ state with identities := ids } : State Op Ref Key).Derived
      (acceptedBy before) := fun ids => h.of_eq rfl rfl
  obtain ⟨retracted, s₁, hretract, hexec⟩ := exec_bind_eq_ok.mp hexec
  obtain ⟨hretract', rfl⟩ := Prod.mk.inj hretract
  obtain ⟨remembered, s₂, hremember, hexec⟩ := exec_bind_eq_ok.mp hexec
  obtain ⟨hremember', rfl⟩ := Prod.mk.inj hremember
  obtain ⟨⟨content, changed₁, reads₁⟩, s₃, hrefresh, hexec⟩ := exec_bind_eq_ok.mp hexec
  obtain ⟨⟨final, reads₂⟩, s₄, hadd, hexec⟩ := exec_bind_eq_ok.mp hexec
  cases hexec
  obtain ⟨hretracted, hkeeps, hchanges₁, htail₁⟩ := (hstart _).retract hbacked hretract'
  obtain ⟨hrecords₂, hcontent₂, hchanges₂, htail₂⟩ := rememberConflicts_frame hremember'
  rw [hcontent₂] at hrefresh
  obtain ⟨howns, hchanged, howned⟩ := ContentIndex.refresh_spec hrefresh
  have hrefreshed : ({ remembered with content := content } : State Op Ref Key).Derived
      (fun id => if id ∈ delta.removed.toList then none else acceptedBy before id) := by
    refine ⟨?_, fun reference id => ?_, howned hretracted.owned⟩
    · show ∀ id : OpId, remembered.records[id]? = _
      rw [hrecords₂]
      exact hretracted.records
    · exact (howns reference id).trans (hretracted.owns reference id)
  obtain ⟨⟨target, htarget, hin, hout⟩, hextends, hchanges₃, htail₃⟩ :=
    hrefreshed.addAll (added_nodup htracks) (fun p hp => by
      obtain ⟨hnew, -⟩ := mem_added htracks hp
      rw [hnew]
      exact ite_self none) hadd
  have heq : target = acceptedBy state.tail.chain := target_eq htracks hin hout
  refine ⟨heq ▸ htarget, fun id hkept hold => ?_,
    hchanges₃.trans (hchanges₂.trans hchanges₁), htail₃.trans (htail₂.trans htail₁)⟩
  rw [hchanged]
  constructor
  · intro hcase
    obtain ⟨reference, hne, hown⟩ := hcase
    obtain ⟨location, op, hsome, hmem⟩ := (hretracted.owns reference id).mp hown
    rw [if_neg (by rwa [ExtTreeSet.mem_toList])] at hsome
    refine ⟨location, op, hsome, reference, hmem, ?_⟩
    rw [hextends reference ((howns reference id).mpr hown).status_isSome,
      ← (hkeeps reference id hown).2]
    exact hne
  · intro hcase
    obtain ⟨location, op, hsome, reference, hmem, hne⟩ := hcase
    have hown : retracted.content.Owns reference id := by
      rw [hretracted.owns]
      refine ⟨location, op, ?_, hmem⟩
      rw [if_neg (by rwa [ExtTreeSet.mem_toList])]
      exact hsome
    refine ⟨reference, ?_, hown⟩
    rw [hextends reference ((howns reference id).mpr hown).status_isSome,
      ← (hkeeps reference id hown).2] at hne
    exact hne

/-! ## Content of an operation -/

omit [Schema Op] [Checksum] [DecidableEq Key] [LawfulEqOrd Ref] [DecidableEq Ref] in
lemma mapM_status {content : ContentIndex Ref} {references : List Ref}
    (h : ∀ reference ∈ references, (content.status reference).isSome) :
    references.mapM (statusOf content)
      = .ok (references.map fun reference =>
        (reference, (content.status reference).getD .missing)) := by
  induction references with
  | nil => rfl
  | cons reference rest ih =>
    obtain ⟨status, hstatus⟩ :=
      Option.isSome_iff_exists.mp (h reference (List.mem_cons_self ..))
    have hfirst : statusOf content reference = .ok (reference, status) := by
      unfold statusOf
      rw [hstatus]
    rw [List.mapM_cons, ih fun other hother => h other (List.mem_cons_of_mem _ hother), hfirst,
      List.map_cons, hstatus]
    rfl

omit [LawfulEqOrd Ref] [DecidableEq Ref] [DecidableEq Key] [Schema Op] [Checksum] in
/-- The references of an accepted operation are all indexed. -/
lemma Derived.status_isSome (h : state.Derived accepted) {id : OpId} {location : OpRecordLocation}
    {op : Op} (hsome : accepted id = some (location, op)) {reference : Ref}
    (hmem : reference ∈ IndexSchema.references op) : (state.content.status reference).isSome :=
  ContentIndex.Owns.status_isSome ((h.owns reference id).mpr ⟨location, op, hsome, hmem⟩)

omit [LawfulEqOrd Ref] [DecidableEq Ref] [DecidableEq Key] [Schema Op] [Checksum] in
/-- The content of an operation that is accepted in two states is the same as long as none of its
references changes. -/
lemma contentOf_eq_iff (h : state.Derived (acceptedBy state.tail.chain))
    (h' : state'.Derived (acceptedBy state'.tail.chain)) {id : OpId} {location : OpRecordLocation}
    {op : Op} (hsome : acceptedBy state.tail.chain id = some (location, op))
    (hsome' : acceptedBy state'.tail.chain id = some (location, op)) :
    state.contentOf id = state'.contentOf id ↔ ∀ reference ∈ IndexSchema.references op,
      state'.content.status reference = state.content.status reference := by
  unfold contentOf
  rw [get_eq_acceptedBy, get_eq_acceptedBy, hsome, hsome']
  dsimp only [Option.map_some]
  rw [mapM_status fun reference hmem => h.status_isSome hsome hmem,
    mapM_status fun reference hmem => h'.status_isSome hsome' hmem]
  show (Except.ok (some _) : Except IoError _) = .ok (some _) ↔ _
  rw [Except.ok.injEq, Option.some.injEq, List.map_inj_left]
  apply forall₂_congr
  intro reference hmem
  obtain ⟨status, hstatus⟩ := Option.isSome_iff_exists.mp (h.status_isSome hsome hmem)
  obtain ⟨status', hstatus'⟩ := Option.isSome_iff_exists.mp (h'.status_isSome hsome' hmem)
  rw [hstatus, hstatus', Prod.mk.injEq, Option.getD_some, Option.getD_some, Option.some.injEq]
  simp only [true_and]
  exact eq_comm

end State
end EditChain.Index
