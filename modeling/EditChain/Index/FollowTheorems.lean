import EditChain.Index.ChangesTheorems
import EditChain.Index.StateTheorems
import Mathlib.Logic.Relation

/-!
# Following an index

In every run of an index, with refreshes that succeed or fail at any point and with reopenings, the
journal tells a consumer at an earlier revision exactly what was recorded after it, as long as it
still covers it, and what it tells leads from the accepted set of that revision to the current one.
-/

namespace EditChain.Store

open Core Fallible

variable {Op : Type} [Schema Op] [Checksum] {d : Directory}

/-- A copy that was drained. -/
lemma Tail.drained_eq_ok {tail tail' : Tail (IndexedChain Op)} {records : ChainDelta Op}
    (h : Tail.drained d tail = .ok (records, tail')) :
    (Tail.drain d).exec tail = (.ok records, tail') := by
  unfold Tail.drained at h
  cases hrun : (Tail.drain d).exec tail with
  | mk result reached =>
    rw [hrun] at h
    cases result with
    | ok found =>
      cases h
      rfl
    | error error => cases h

end EditChain.Store

namespace EditChain.Index

open Core Fallible Store
open Std (ExtTreeMap ExtTreeSet TransOrd LawfulEqOrd)

variable {Op Ref Key : Type} [Schema Op] [Checksum] [IndexSchema Op Ref Key] [DecidableEq Key]
  [Ord Ref] [TransOrd Ref] [LawfulEqOrd Ref] [DecidableEq Ref]

namespace State

variable {d : Directory} {state state' : State Op Ref Key}
  {σ : Type} {source : Ref → Fallible IoError σ ContentState} {s s' : σ}

/-- A state that follows its chain, with the journal of a named generation. -/
structure Follows (d : Directory) (state : State Op Ref Key) : Prop where
  derived : state.Derived (acceptedBy state.tail.chain)
  backed : Backed d (acceptedBy state.tail.chain)
  named : state.changes.revision.generation ≠ ""
  journal : ∃ all, state.changes.Records all

omit [DecidableEq Key] [LawfulEqOrd Ref] [DecidableEq Ref] in
lemma Follows.grows {d' : Directory} (h : state.Follows d) (hgrows : d.Grows d') :
    state.Follows d' :=
  ⟨h.derived, h.backed.grows hgrows, h.named, h.journal⟩

/-! ## One refresh -/

/-- What a refresh reports is how its copy of the state changed. -/
structure Reports (delta : IndexDelta) (before after : State Op Ref Key) : Prop where
  accepted : after.accepted
    = (before.accepted \ {id | id ∈ delta.removed}) ∪ {id | id ∈ delta.added}
  content : ∀ id, id ∈ delta.contentChanged
    ↔ id ∈ before.accepted ∧ id ∈ after.accepted ∧ before.contentOf id ≠ after.contentOf id
  generation : after.changes.revision.generation = before.changes.revision.generation
  journal : ∀ all, before.changes.Records all → after.changes.Records (all ++ delta.changes)

omit [Schema Op] [Checksum] [DecidableEq Key] [LawfulEqOrd Ref] [DecidableEq Ref] in
/-- An empty report is true of what stays as it is. -/
lemma Reports.idle {delta : IndexDelta} (hadded : delta.added = []) (hremoved : delta.removed = ∅)
    (hcontent : delta.contentChanged = ∅) : Reports delta state state := by
  refine ⟨?_, fun id => ?_, rfl, fun all hall => ?_⟩
  · rw [hadded, hremoved]
    ext id
    simp
  · rw [hcontent]
    simp
  · unfold IndexDelta.changes
    have hnone : (∅ : ExtTreeSet OpId).toList = [] := rfl
    rw [hadded, hremoved, hcontent, hnone]
    simpa using hall

/-- Nothing is both added and removed. -/
lemma disjoint_delta {delta : ChainDelta Op} {before after : IndexedChain Op}
    (htracks : delta.Tracks d before after) {id : OpId} (hadded : id ∈ delta.added) :
    id ∉ delta.removed := by
  intro hremoved
  obtain ⟨⟨op, location⟩, hsome⟩ := Option.isSome_iff_exists.mp
    (ExtTreeMap.mem_iff_isSome_getElem?.mp hadded)
  obtain ⟨-, hafter, -, -⟩ := htracks.added id op location hsome
  obtain ⟨entry, hentry, hnone⟩ := htracks.removed id hremoved
  rw [hafter] at hentry
  cases hentry
  cases hnone

/-- What is neither added nor removed is accepted as before. -/
lemma acceptedBy_of_kept {delta : ChainDelta Op} {before after : IndexedChain Op}
    (htracks : delta.Tracks d before after) {id : OpId} (hadded : id ∉ delta.added)
    (hremoved : id ∉ delta.removed) : acceptedBy after id = acceptedBy before id := by
  unfold acceptedBy
  rw [htracks.kept id hremoved]
  rw [ExtTreeMap.mem_iff_isSome_getElem?, Option.not_isSome_iff_eq_none] at hadded
  exact hadded

/-- The accepted set after a delta. -/
lemma isSome_acceptedBy {delta : ChainDelta Op} {before after : IndexedChain Op}
    (htracks : delta.Tracks d before after) (id : OpId) :
    (acceptedBy after id).isSome
      ↔ ((acceptedBy before id).isSome ∧ id ∉ delta.removed) ∨ id ∈ delta.added := by
  by_cases hadded : id ∈ delta.added
  · obtain ⟨⟨op, location⟩, hsome⟩ := Option.isSome_iff_exists.mp
      (ExtTreeMap.mem_iff_isSome_getElem?.mp hadded)
    obtain ⟨-, hafter, -, -⟩ := htracks.added id op location hsome
    rw [acceptedBy_eq_some.mpr hafter]
    simp [hadded]
  · by_cases hremoved : id ∈ delta.removed
    · obtain ⟨entry, hentry, hnone⟩ := htracks.removed id hremoved
      have hgone : acceptedBy after id = none := by
        unfold acceptedBy
        rw [hentry, Option.bind_some, hnone]
        rfl
      rw [hgone]
      simp [hadded, hremoved]
    · rw [acceptedBy_of_kept htracks hadded hremoved]
      simp [hadded, hremoved]

/-- The work of a refresh on its copy. -/
lemma Follows.advance {delta : IndexDelta} (h : state.Follows d)
    (hexec : (state.advance source d).exec s = (.ok (state', delta), s')) :
    state'.Follows d ∧ Reports delta state state'
      ∧ (delta.work.records.bytesRead = 0 → delta.added = [] ∧ delta.removed = ∅)
      ∧ ∀ id ∈ delta.added, id ∉ delta.removed := by
  unfold State.advance at hexec
  obtain ⟨⟨records, tail⟩, s₁, hdrained, hexec⟩ := exec_bind_eq_ok.mp hexec
  obtain ⟨hdrained', rfl⟩ := Prod.mk.inj hdrained
  obtain ⟨⟨next, changed, reads⟩, s₂, happly, hexec⟩ := exec_bind_eq_ok.mp hexec
  obtain ⟨changes, s₃, hchanges, hexec⟩ := exec_bind_eq_ok.mp hexec
  obtain ⟨hchanges', rfl⟩ := Prod.mk.inj hchanges
  cases hexec
  have hdrain := Tail.drained_eq_ok hdrained'
  obtain ⟨htracks, hidles⟩ := Tail.drain_tracks hdrain
  have hcopy : ({ state with tail := tail } : State Op Ref Key).Derived
      (acceptedBy state.tail.chain) := h.derived.of_eq rfl rfl
  obtain ⟨hderived, hchanged, hsame, htail⟩ := hcopy.apply h.backed htracks happly
  have hnext : next.Derived (acceptedBy next.tail.chain) := by
    rw [htail]
    exact hderived
  have hmem : ∀ id, id ∈ next.accepted ↔ id ∈ state.accepted ∧ id ∉ records.removed
      ∨ id ∈ records.added := by
    intro id
    rw [hderived.mem_accepted, h.derived.mem_accepted]
    exact isSome_acceptedBy htracks id
  have happended := fun all (hall : next.changes.Records all) => hall.appendAll hchanges'
  rw [show next.changes = state.changes from hsame] at happended
  obtain ⟨all, hall⟩ := h.journal
  have hgeneration := (happended all hall).2
  refine ⟨⟨hnext.of_eq rfl rfl, ?_, ?_, _, (happended all hall).1⟩,
    ⟨?_, fun id => ?_, hgeneration, fun all hall => (happended all hall).1⟩, fun hzero => ?_,
    fun id hid => disjoint_delta htracks (ExtTreeMap.mem_keys.mp hid)⟩
  · show Backed d (acceptedBy next.tail.chain)
    rw [htail]
    exact h.backed.tracks htracks
  · show changes.revision.generation ≠ ""
    rw [hgeneration]
    exact h.named
  · ext id
    refine (hmem id).trans ?_
    simp only [Set.mem_union, Set.mem_sdiff, Set.mem_ofPred_eq, ExtTreeMap.mem_keys]
  · rw [ExtTreeSet.mem_filter]
    simp only [ExtTreeSet.get_eq, exists_prop, Bool.not_eq_true', Bool.or_eq_false_iff,
      decide_eq_false_iff_not]
    constructor
    · intro hcase
      obtain ⟨hin, hadded, hremoved⟩ := hcase
      have hnone : records.added[id]? = none := by
        rw [ExtTreeMap.mem_iff_isSome_getElem?, Option.not_isSome_iff_eq_none] at hadded
        exact hadded
      obtain ⟨location, op, hsome, reference, hreference, hne⟩ :=
        (hchanged id hremoved hnone).mp hin
      have hbefore : id ∈ state.accepted := by
        rw [h.derived.mem_accepted, hsome]
        rfl
      refine ⟨hbefore, (hmem id).mpr (.inl ⟨hbefore, hremoved⟩), fun heq => hne ?_⟩
      have hafter : acceptedBy next.tail.chain id = some (location, op) := by
        rw [htail, ← hsome]
        exact acceptedBy_of_kept htracks hadded hremoved
      exact (contentOf_eq_iff h.derived hnext hsome hafter).mp heq reference hreference
    · intro hcase
      obtain ⟨hbefore, hafter, hne⟩ := hcase
      rw [h.derived.mem_accepted] at hbefore
      obtain ⟨⟨location, op⟩, hsome⟩ := Option.isSome_iff_exists.mp hbefore
      have hadded : id ∉ records.added := by
        intro hin
        obtain ⟨found, hfound⟩ := Option.isSome_iff_exists.mp
          (ExtTreeMap.mem_iff_isSome_getElem?.mp hin)
        have hfresh := (htracks.added id found.1 found.2 hfound).1
        rw [acceptedBy_eq_some.mp hsome] at hfresh
        cases hfresh
      have hremoved : id ∉ records.removed := by
        rcases (hmem id).mp hafter with hkept | hin
        · exact hkept.2
        · exact absurd hin hadded
      have hnone : records.added[id]? = none := by
        rw [ExtTreeMap.mem_iff_isSome_getElem?, Option.not_isSome_iff_eq_none] at hadded
        exact hadded
      refine ⟨(hchanged id hremoved hnone).mpr ⟨location, op, hsome, ?_⟩, hadded, hremoved⟩
      have hkept : acceptedBy next.tail.chain id = some (location, op) := by
        rw [htail, ← hsome]
        exact acceptedBy_of_kept htracks hadded hremoved
      by_contra hall
      push Not at hall
      exact hne ((contentOf_eq_iff h.derived hnext hsome hkept).mpr hall)
  · obtain ⟨hadded, hremoved⟩ := hidles hzero
    refine ⟨?_, hremoved⟩
    show records.added.keys = []
    rw [hadded]
    rfl

/-! ## Building -/

omit [IndexSchema Op Ref Key] [DecidableEq Key] [Ord Ref] [TransOrd Ref] [LawfulEqOrd Ref]
  [DecidableEq Ref] in
lemma openLoop_backed (fuel : ℕ) {tail tail' : Tail (IndexedChain Op)}
    (h : Backed d (acceptedBy tail.chain))
    (hexec : (Tail.openLoop d fuel).exec tail = (.ok (), tail')) :
    Backed d (acceptedBy tail'.chain) := by
  induction fuel generalizing tail with
  | zero =>
    cases hexec
    exact h
  | succ fuel ih =>
    rw [Tail.openLoop, exec_bind_of_ok (exec_get tail)] at hexec
    obtain ⟨delta, polled, hpoll, hexec⟩ := exec_bind_eq_ok.mp hexec
    have hpolled := h.tracks (Tail.poll_tracks hpoll).1
    rw [exec_bind_of_ok (exec_get polled)] at hexec
    split at hexec
    · cases hexec
      exact hpolled
    · exact ih hpolled hexec

/-- An opened frontier has read what it accepts. -/
lemma openAll_backed {root : String} {tail : Tail (IndexedChain Op)}
    (h : Tail.openAll root d = .ok tail) : Backed d (acceptedBy tail.chain) := by
  unfold Tail.openAll at h
  obtain ⟨sequences, -, h⟩ := bind_eq_ok.mp h
  generalize hrun : Fallible.exec (σ := Tail (IndexedChain Op)) (Tail.openLoop d _)
    (Tail.empty root) = outcome at h
  obtain ⟨result, reached⟩ := outcome
  cases result with
  | error error => cases h
  | ok done =>
    cases h
    apply openLoop_backed _ _ hrun
    intro id location op hsome
    rw [acceptedBy_eq_some] at hsome
    have hnone : (Tail.empty root : Tail (IndexedChain Op)).chain.entries[id]? = none := by
      show (∅ : ExtTreeMap OpId (IndexEntry Op))[id]? = none
      simp
    rw [hnone] at hsome
    cases hsome

omit [Checksum] in
lemma located_spec {chain : IndexedChain Op} {ops : List Op}
    {operations : List (Op × OpRecordLocation)} (h : located chain ops = .ok operations) :
    operations.map Prod.fst = ops
      ∧ ∀ p ∈ operations, (chain.recordLocations (Schema.id p.1)).head? = some p.2 := by
  induction ops generalizing operations with
  | nil =>
    cases h
    exact ⟨rfl, by simp⟩
  | cons op ops ih =>
    rw [located] at h
    obtain ⟨location, hlocation, h⟩ := bind_eq_ok.mp h
    obtain ⟨rest, hrest, h⟩ := bind_eq_ok.mp h
    cases h
    obtain ⟨hmap, hall⟩ := ih hrest
    refine ⟨by rw [List.map_cons, hmap], fun p hp => ?_⟩
    rcases List.mem_cons.mp hp with rfl | hp
    · cases hhead : (chain.recordLocations (Schema.id op)).head? with
      | none =>
        rw [hhead] at hlocation
        cases hlocation
      | some found =>
        rw [hhead] at hlocation
        cases hlocation
        rfl
    · exact hall p hp

omit [Checksum] in
/-- The identities of the accepted operations are among those of the entries, in their order. -/
lemma sublist_keys {entries : List (OpId × IndexEntry Op)}
    (h : ∀ r ∈ entries, ∀ op, r.2.accepted = some op → Schema.id op = r.1) :
    ((entries.filterMap (·.2.accepted)).map Schema.id).Sublist (entries.map Prod.fst) := by
  induction entries with
  | nil => exact List.Sublist.refl []
  | cons r entries ih =>
    have hrest := ih fun r hr => h r (List.mem_cons_of_mem _ hr)
    rw [List.map_cons, List.filterMap_cons]
    cases haccepted : r.2.accepted with
    | none => exact hrest.cons _
    | some op =>
      rw [List.map_cons, h r (List.mem_cons_self ..) op haccepted]
      exact hrest.cons_cons _

omit [Schema Op] [Checksum] in
lemma mem_sharedOps {chain : IndexedChain Op} {op : Op} :
    op ∈ chain.sharedOps ↔ ∃ id location, acceptedBy chain id = some (location, op) := by
  unfold IndexedChain.sharedOps
  rw [List.mem_filterMap]
  constructor
  · intro hcase
    obtain ⟨⟨id, found⟩, hmem, haccepted⟩ := hcase
    rw [ExtTreeMap.mem_toList_iff_getElem?_eq_some] at hmem
    refine ⟨id, found.location, acceptedBy_eq_some.mpr ?_⟩
    rw [hmem, ← haccepted]
  · intro hcase
    obtain ⟨id, location, hsome⟩ := hcase
    refine ⟨(id, ⟨location, some op⟩), ?_, rfl⟩
    rw [ExtTreeMap.mem_toList_iff_getElem?_eq_some]
    exact acceptedBy_eq_some.mp hsome

/-- Each accepted operation is located where it is accepted. -/
lemma located_accepted {chain : IndexedChain Op} {operations : List (Op × OpRecordLocation)}
    (hbacked : Backed d (acceptedBy chain)) (h : located chain chain.sharedOps = .ok operations) :
    ∀ p ∈ operations, acceptedBy chain (Schema.id p.1) = some (p.2, p.1) := by
  obtain ⟨hmap, hhead⟩ := located_spec h
  intro p hp
  have hop : p.1 ∈ chain.sharedOps := by
    rw [← hmap]
    exact List.mem_map.mpr ⟨p, hp, rfl⟩
  obtain ⟨id, location, hsome⟩ := mem_sharedOps.mp hop
  obtain ⟨-, hid⟩ := hbacked id location p.1 hsome
  have hplace := hhead p hp
  unfold IndexedChain.recordLocations at hplace
  rw [hid, acceptedBy_eq_some.mp hsome] at hplace
  rw [hid, hsome]
  cases hplace
  rfl

/-- A state that is built follows its chain, with an empty journal. -/
lemma build_follows {root name : String} (hname : name ≠ "")
    (hexec : (build source root d name).exec s = (.ok state, s')) :
    state.Follows d ∧ state.changes = { revision := ⟨name, 0⟩ } := by
  unfold build at hexec
  obtain ⟨tail, s₁, htail, hexec⟩ := exec_bind_eq_ok.mp hexec
  obtain ⟨hopen, rfl⟩ := Prod.mk.inj htail
  obtain ⟨operations, s₂, hlocated, hexec⟩ := exec_bind_eq_ok.mp hexec
  obtain ⟨hlocated', rfl⟩ := Prod.mk.inj hlocated
  obtain ⟨⟨added, reads⟩, s₃, hadd, hexec⟩ := exec_bind_eq_ok.mp hexec
  obtain ⟨hremember, rfl⟩ := Prod.mk.inj hexec
  have hbacked := openAll_backed hopen
  obtain ⟨hmap, -⟩ := located_spec hlocated'
  have hin := located_accepted hbacked hlocated'
  have hnodup : (operations.map fun p => Schema.id p.1).Nodup := by
    have heq : (operations.map fun p => Schema.id p.1) = tail.chain.sharedOps.map Schema.id := by
      rw [← hmap, List.map_map]
      rfl
    rw [heq]
    have hids : ∀ r ∈ tail.chain.entries.toList, ∀ op, r.2.accepted = some op →
        Schema.id op = r.1 := by
      intro r hr op haccepted
      obtain ⟨id, location, accepted⟩ := r
      rw [ExtTreeMap.mem_toList_iff_getElem?_eq_some] at hr
      dsimp only at haccepted
      rw [haccepted] at hr
      exact (hbacked id location op (acceptedBy_eq_some.mpr hr)).2
    apply (sublist_keys hids).nodup
    rw [ExtTreeMap.map_fst_toList_eq_keys]
    exact ExtTreeMap.nodup_keys
  have hempty : ∀ log ids, ({ changes := log, tail := tail, identities := ids }
      : State Op Ref Key).Derived (fun _ => none) := by
    intro log ids
    refine ⟨fun id => by simp, fun reference id => ?_, ContentIndex.owned_empty⟩
    simp only [reduceCtorEq, false_and, exists_false, iff_false]
    exact ContentIndex.not_owns_empty reference id
  obtain ⟨⟨target, htarget, htargets, hothers⟩, -, hchanges, htail⟩ :=
    (hempty _ _).addAll hnodup (fun _ _ => rfl) hadd
  have heq : target = acceptedBy tail.chain := by
    funext id
    cases hsome : acceptedBy tail.chain id with
    | none =>
      apply hothers
      intro p hp heq
      have hp' := hin p hp
      rw [heq, hsome] at hp'
      cases hp'
    | some found =>
      obtain ⟨location, op⟩ := found
      have hop : op ∈ operations.map Prod.fst := by
        rw [hmap]
        exact mem_sharedOps.mpr ⟨id, location, hsome⟩
      obtain ⟨p, hp, rfl⟩ := List.mem_map.mp hop
      obtain ⟨-, hid⟩ := hbacked id location p.1 hsome
      have hp' := hin p hp
      have htarget' := htargets p hp
      rw [hid] at hp' htarget'
      rw [htarget', ← hp', hsome]
  obtain ⟨hrecords, hcontent, hlog, htail'⟩ := rememberConflicts_frame hremember
  have hnamed : state.changes = { revision := ⟨name, 0⟩ } := by
    rw [hlog, hchanges]
    rfl
  have hchain : state.tail = tail := htail'.trans htail
  have hall : state.changes.Records [] := by
    rw [hnamed]
    exact ChangeLog.records_empty name
  refine ⟨⟨?_, ?_, ?_, [], hall⟩, hnamed⟩
  · rw [hchain, ← heq]
    exact htarget.of_eq hrecords hcontent
  · rw [hchain]
    exact hbacked
  · rw [hnamed]
    exact hname

/-! ## Progress -/

/-- The journal of a later state tells how to get there. -/
structure Later (before after : State Op Ref Key) : Prop where
  generation : after.changes.revision.generation = before.changes.revision.generation
  journal : ∀ all, before.changes.Records all → ∃ new, after.changes.Records (all ++ new)
    ∧ applyChanges before.accepted new = after.accepted

omit [Schema Op] [Checksum] [IndexSchema Op Ref Key] [DecidableEq Key] [TransOrd Ref]
  [LawfulEqOrd Ref] [DecidableEq Ref] in
lemma Later.refl (state : State Op Ref Key) : Later state state := by
  refine ⟨rfl, fun all hall => ⟨[], ?_, rfl⟩⟩
  rw [List.append_nil]
  exact hall

omit [Schema Op] [Checksum] [IndexSchema Op Ref Key] [DecidableEq Key] [TransOrd Ref]
  [LawfulEqOrd Ref] [DecidableEq Ref] in
lemma Later.trans {a b c : State Op Ref Key} (hab : Later a b) (hbc : Later b c) : Later a c := by
  refine ⟨hbc.generation.trans hab.generation, fun all hall => ?_⟩
  obtain ⟨first, hfirst, hb⟩ := hab.journal all hall
  obtain ⟨second, hsecond, hc⟩ := hbc.journal _ hfirst
  refine ⟨first ++ second, ?_, ?_⟩
  · rw [← List.append_assoc]
    exact hsecond
  · rw [applyChanges_append, hb, hc]

omit [Schema Op] [Checksum] [DecidableEq Key] [LawfulEqOrd Ref] [DecidableEq Ref] in
/-- What a refresh reports leads from one accepted set to the other. -/
lemma Reports.later {delta : IndexDelta} (h : Reports delta state state')
    (hdisjoint : ∀ id ∈ delta.added, id ∉ delta.removed) : Later state state' := by
  refine ⟨h.generation, fun all hall => ⟨delta.changes, h.journal all hall, ?_⟩⟩
  unfold IndexDelta.changes
  rw [applyChanges_append, applyChanges_append, applyChanges_added, applyChanges_removed,
    applyChanges_content, h.accepted]
  ext id
  simp only [Set.mem_sdiff, Set.mem_union, Set.mem_ofPred_eq, ExtTreeSet.mem_toList]
  constructor
  · intro hcase
    rcases hcase with ⟨hold | hnew, hkept⟩
    · exact .inl ⟨hold, hkept⟩
    · exact .inr hnew
  · intro hcase
    rcases hcase with ⟨hold, hkept⟩ | hnew
    · exact ⟨.inl hold, hkept⟩
    · exact ⟨.inr hnew, hdisjoint id hnew⟩

end State

namespace ChainIndex

variable {σ : Type} {source : Ref → Fallible IoError σ ContentState} {around : Surroundings σ}
  {saved saved' : Option (State Op Ref Key)} {index : ChainIndex Op Ref Key}
  {session : Session Op Ref Key}

omit [Schema Op] [Checksum] [IndexSchema Op Ref Key] [DecidableEq Key] [TransOrd Ref]
  [LawfulEqOrd Ref] [DecidableEq Ref] in
/-- How a publication ends. -/
lemma exec_publish (outcome : Publication) (next : State Op Ref Key)
    (session : Session Op Ref Key) :
    (publish outcome next).exec session
      = match outcome with
        | .done => (.ok (), ⟨some next, ⟨next, false⟩⟩)
        | .failed replaced error => (.error error,
          ⟨if replaced then some next else session.saved, ⟨session.index.state, true⟩⟩) := by
  cases outcome with
  | done => rfl
  | failed replaced error => cases replaced <;> rfl

omit [LawfulEqOrd Ref] [DecidableEq Ref] in
/-- How a refresh ends: it changes nothing that can be seen, it fails after the checkpoint was
replaced, or it succeeds. -/
lemma refresh_cases {result : Except IoError IndexDelta}
    (h : (refresh source around).exec ⟨saved, index⟩ = (result, session)) :
    (session.saved = saved ∧ session.index.state = index.state
        ∧ ∀ delta, result = .ok delta → ∃ next s',
          (index.state.advance source around.directory).exec around.blobs = (.ok (next, delta), s')
            ∧ delta.work.records.bytesRead = 0 ∧ delta.contentChanged = ∅)
      ∨ ∃ next delta s',
        (index.state.advance source around.directory).exec around.blobs = (.ok (next, delta), s')
          ∧ session.saved = some next
          ∧ ((session.index.state = index.state ∧ ∃ error, result = .error error)
            ∨ (session.index.state = next ∧ result = .ok delta)) := by
  unfold refresh at h
  rw [exec_bind_of_ok (exec_get _)] at h
  dsimp only at h
  rw [exec_bind, exec_lift] at h
  generalize index.checkWritable = writable at h
  cases writable with
  | error error =>
    cases h
    exact .inl ⟨rfl, rfl, nofun⟩
  | ok _ =>
    dsimp only at h
    rw [exec_bind, exec_lift] at h
    generalize around.damage.elim (.ok ()) Except.error = damage at h
    cases damage with
    | error error =>
      cases h
      exact .inl ⟨rfl, rfl, nofun⟩
    | ok _ =>
      dsimp only at h
      rw [exec_bind, exec_lift] at h
      generalize hadvance :
        (index.state.advance source around.directory).exec around.blobs = outcome at h
      obtain ⟨advanced, s'⟩ := outcome
      cases advanced with
      | error error =>
        cases h
        exact .inl ⟨rfl, rfl, nofun⟩
      | ok pair =>
        obtain ⟨next, delta⟩ := pair
        dsimp only at h
        split at h
        · -- there is something to publish
          rw [exec_bind, exec_publish] at h
          generalize around.outcome = outcome at h
          cases outcome with
          | done =>
            cases h
            exact .inr ⟨next, delta, s', rfl, rfl, .inr ⟨rfl, rfl⟩⟩
          | failed replaced error =>
            cases h
            cases replaced with
            | false => exact .inl ⟨rfl, rfl, nofun⟩
            | true => exact .inr ⟨next, delta, s', rfl, rfl, .inl ⟨rfl, error, rfl⟩⟩
        · next hidle =>
          cases h
          rw [not_or, Nat.not_lt, Nat.le_zero, Bool.not_eq_false, ExtTreeSet.isEmpty_iff] at hidle
          refine .inl ⟨rfl, rfl, fun found hfound => ?_⟩
          cases hfound
          exact ⟨next, s', rfl, hidle⟩

variable {d : Directory}

/-- A refresh goes forward, and never leaves the checkpoint behind the handle. -/
lemma refresh_keeps {result : Except IoError IndexDelta} (hd : around.directory = d)
    (hfollows : index.state.Follows d)
    (hsaved : ∃ state, saved = some state ∧ state.Follows d ∧ State.Later index.state state)
    (h : (refresh source around).exec ⟨saved, index⟩ = (result, session)) :
    session.index.state.Follows d ∧ State.Later index.state session.index.state
      ∧ ∃ state, session.saved = some state ∧ state.Follows d
        ∧ State.Later session.index.state state
        ∧ (session.saved = saved ∨ State.Later index.state state) := by
  subst hd
  rcases refresh_cases h with ⟨hkept, hstate, -⟩ | ⟨next, delta, s', hadvance, hnext, hcases⟩
  · obtain ⟨state, hsome, hstays, hlater⟩ := hsaved
    rw [hstate]
    exact ⟨hfollows, .refl _, state, hkept.trans hsome, hstays, hlater, .inl hkept⟩
  · obtain ⟨hstays, hreports, -, hdisjoint⟩ := hfollows.advance hadvance
    have hlater := hreports.later hdisjoint
    rcases hcases with ⟨hstate, -⟩ | ⟨hstate, -⟩
    · rw [hstate]
      exact ⟨hfollows, .refl _, next, hnext, hstays, hlater, .inr hlater⟩
    · rw [hstate]
      exact ⟨hstays, hlater, next, hnext, hstays, .refl _, .inr hlater⟩

omit [Schema Op] [Checksum] [IndexSchema Op Ref Key] [DecidableEq Key] [TransOrd Ref]
  [LawfulEqOrd Ref] [DecidableEq Ref] in
lemma exec_commit (outcome : Publication) (state : State Op Ref Key) :
    (commit outcome state).exec saved
      = match outcome with
        | .done => (.ok state, some state)
        | .failed replaced error => (.error error, if replaced then some state else saved) := by
  cases outcome with
  | done => rfl
  | failed replaced error => cases replaced <;> rfl

omit [LawfulEqOrd Ref] [DecidableEq Ref] in
/-- Opening takes the checkpoint as it is, or makes the first one. -/
lemma restore_cases {root name : String} {result : Except IoError (State Op Ref Key)}
    (hd : around.directory = d)
    (hsaved : ∀ state, saved = some state → state.Follows d)
    (h : (restore source root name around).exec saved = (result, saved')) :
    (∀ state, result = .ok state → saved' = some state)
      ∧ (saved' = saved ∨ (saved = none ∧ ∃ state s', saved' = some state
        ∧ (State.build source root d name).exec around.blobs = (.ok state, s'))) := by
  subst hd
  unfold restore at h
  rw [exec_bind_of_ok (exec_get _)] at h
  cases saved with
  | some state =>
    dsimp only at h
    rw [exec_bind, exec_lift] at h
    generalize state.tail.resume root around.directory = resumed at h
    cases resumed with
    | error error =>
      cases h
      exact ⟨nofun, .inl rfl⟩
    | ok _ =>
      have hsame : state.changes.nameGeneration name = (state.changes, false) := by
        unfold ChangeLog.nameGeneration
        rw [if_pos (hsaved state rfl).named]
      dsimp only at h
      rw [hsame] at h
      cases h
      exact ⟨fun found hfound => by cases hfound; rfl, .inl rfl⟩
  | none =>
    dsimp only at h
    rw [exec_bind, exec_lift] at h
    generalize hbuild :
      (State.build source root around.directory name).exec around.blobs = built at h
    obtain ⟨built, s'⟩ := built
    cases built with
    | error error =>
      cases h
      exact ⟨nofun, .inl rfl⟩
    | ok state =>
      dsimp only at h
      rw [exec_commit] at h
      generalize around.outcome = outcome at h
      cases outcome with
      | done =>
        cases h
        exact ⟨fun found hfound => by cases hfound; rfl, .inr ⟨rfl, state, s', rfl, rfl⟩⟩
      | failed replaced error =>
        cases h
        cases replaced with
        | false => exact ⟨nofun, .inl rfl⟩
        | true => exact ⟨nofun, .inr ⟨rfl, state, s', rfl, rfl⟩⟩

/-- Opening goes forward from the checkpoint. -/
lemma openIndex_keeps {root name : String} {again : Surroundings σ}
    {result : Except IoError (ChainIndex Op Ref Key)} (hd : around.directory = d)
    (hd' : again.directory = d) (hname : name ≠ "")
    (hsaved : ∀ state, saved = some state → state.Follows d)
    (h : (openIndex source root name around again).exec saved = (result, saved')) :
    (∀ state, saved' = some state → state.Follows d)
      ∧ (∀ index, result = .ok index → index.state.Follows d
        ∧ ∃ state, saved' = some state ∧ State.Later index.state state)
      ∧ ∀ state, saved = some state → (∃ state', saved' = some state' ∧ State.Later state state')
        ∧ ∀ index, result = .ok index → State.Later state index.state := by
  unfold openIndex at h
  rw [exec_bind] at h
  generalize hrestore : (restore source root name around).exec saved = restored at h
  obtain ⟨restored, middle⟩ := restored
  obtain ⟨hhandle, hcheckpoint⟩ := restore_cases hd hsaved hrestore
  have hmiddle : ∀ state, middle = some state → state.Follows d := by
    intro state hstate
    rcases hcheckpoint with hsame | ⟨-, found, s', hfound, hbuild⟩
    · exact hsaved state (hsame ▸ hstate)
    · rw [hfound] at hstate
      cases hstate
      exact (State.build_follows hname hbuild).1
  have hkept : ∀ state, saved = some state → middle = some state := by
    intro state hstate
    rcases hcheckpoint with hsame | ⟨hnone, -⟩
    · exact hsame.trans hstate
    · rw [hnone] at hstate
      cases hstate
  cases restored with
  | error error =>
    cases h
    exact ⟨hmiddle, nofun, fun state hstate => ⟨⟨state, hkept state hstate, .refl _⟩, nofun⟩⟩
  | ok state =>
    have hstate := hhandle state rfl
    dsimp only at h
    rw [exec_bind_of_ok (exec_get _), exec_of] at h
    generalize hrefresh : (refresh source again).exec ⟨middle, ⟨state, false⟩⟩ = refreshed at h
    obtain ⟨refreshed, session⟩ := refreshed
    obtain ⟨hfollows, hlater, found, hfound, hstays, hahead, hcases⟩ :=
      refresh_keeps hd' (hmiddle state hstate) ⟨state, hstate, hmiddle state hstate, .refl _⟩
        hrefresh
    have hforward : State.Later state found := hlater.trans hahead
    have hsame : ∀ old, saved = some old → old = state := by
      intro old hold
      have hboth := hkept old hold
      rw [hstate] at hboth
      exact (Option.some.inj hboth).symm
    have hall : ∀ other, session.saved = some other → other.Follows d := by
      intro other hother
      rw [hfound] at hother
      cases hother
      exact hstays
    cases refreshed with
    | error error =>
      cases h
      refine ⟨hall, nofun, fun old hold => ⟨⟨found, hfound, ?_⟩, nofun⟩⟩
      rw [hsame old hold]
      exact hforward
    | ok delta =>
      cases h
      refine ⟨hall, fun index hindex => ?_,
        fun old hold => ⟨⟨found, hfound, ?_⟩, fun index hindex => ?_⟩⟩
      · cases hindex
        exact ⟨hfollows, found, hfound, hahead⟩
      · rw [hsame old hold]
        exact hforward
      · cases hindex
        rw [hsame old hold]
        exact hlater

end ChainIndex

omit [Checksum] in
lemma generationName_ne (nanos process counter : ℕ) :
    generationName nanos process counter ≠ "" := by
  unfold generationName
  intro h
  have hlength := congrArg String.length h
  simp at hlength

/-! ## Runs -/

/-- A chain with its checkpoint, and the handle of its index while there is one. -/
structure World (Op Ref Key : Type) [Ord Ref] where
  directory : Directory
  saved : Option (State Op Ref Key) := none
  handle : Option (ChainIndex Op Ref Key) := none

namespace World

variable {σ : Type} (source : Ref → Fallible IoError σ ContentState) (root : String)

/-- What can happen to a chain and its index: the chain grows, the handle refreshes with any
outcome, it is dropped, or the index is opened. Content may change at any time. -/
inductive Step : World Op Ref Key → World Op Ref Key → Prop
  | grow {w : World Op Ref Key} {d : Directory} : w.directory.Grows d →
      Step w { w with directory := d }
  | refresh {w : World Op Ref Key} {index : ChainIndex Op Ref Key} {session : Session Op Ref Key}
      {result : Except IoError IndexDelta} (blobs : σ) (damage : Option IoError)
      (outcome : Publication) : w.handle = some index →
      (ChainIndex.refresh source ⟨w.directory, blobs, damage, outcome⟩).exec ⟨w.saved, index⟩
        = (result, session) →
      Step w { w with saved := session.saved, handle := some session.index }
  | close {w : World Op Ref Key} : Step w { w with handle := none }
  | openIndex {w : World Op Ref Key} {saved : Option (State Op Ref Key)}
      {result : Except IoError (ChainIndex Op Ref Key)} (nanos process counter : ℕ)
      (around again : Surroundings σ) : w.handle = none →
      around.directory = w.directory → again.directory = w.directory →
      (ChainIndex.openIndex source root (generationName nanos process counter) around again).exec
        w.saved = (result, saved) →
      Step w { w with saved := saved, handle := result.toOption }

/-- Any number of steps. -/
def Run : World Op Ref Key → World Op Ref Key → Prop := Relation.ReflTransGen (Step source root)

variable {source : Ref → Fallible IoError σ ContentState} {root : String}
  {w w' : World Op Ref Key} {index index' : ChainIndex Op Ref Key}

/-- The checkpoint and the handle follow the chain, and the checkpoint is not behind the handle. -/
structure Sound (w : World Op Ref Key) : Prop where
  saved : ∀ state, w.saved = some state → state.Follows w.directory
  handle : ∀ index, w.handle = some index → index.state.Follows w.directory
    ∧ ∃ state, w.saved = some state ∧ State.Later index.state state

/-- Neither the checkpoint nor the handle is behind a state. -/
structure Beyond (first : State Op Ref Key) (w : World Op Ref Key) : Prop where
  saved : ∃ state, w.saved = some state ∧ State.Later first state
  handle : ∀ index, w.handle = some index → State.Later first index.state

lemma Step.sound (h : Sound w) (hstep : Step source root w w') : Sound w' := by
  cases hstep with
  | grow hgrows =>
    refine ⟨fun state hstate => (h.saved state hstate).grows hgrows, fun index hindex => ?_⟩
    obtain ⟨hfollows, hlater⟩ := h.handle index hindex
    exact ⟨hfollows.grows hgrows, hlater⟩
  | refresh blobs damage outcome hindex hrefresh =>
    obtain ⟨hfollows, state, hstate, hlater⟩ := h.handle _ hindex
    obtain ⟨hnext, -, found, hfound, hstays, hahead, -⟩ := ChainIndex.refresh_keeps rfl hfollows
      ⟨state, hstate, h.saved state hstate, hlater⟩ hrefresh
    refine ⟨fun other hother => ?_, fun other hother => ?_⟩
    · cases hfound.symm.trans hother
      exact hstays
    · cases hother
      exact ⟨hnext, found, hfound, hahead⟩
  | close => exact ⟨h.saved, nofun⟩
  | openIndex nanos process counter around again hnone hd hd' hopen =>
    obtain ⟨hsaved, hhandle, -⟩ := ChainIndex.openIndex_keeps hd hd'
      (generationName_ne nanos process counter) h.saved hopen
    refine ⟨hsaved, fun index hindex => hhandle index ?_⟩
    exact toOption_eq_some.mp hindex

lemma Step.beyond {first : State Op Ref Key} (h : Sound w) (hbeyond : Beyond first w)
    (hstep : Step source root w w') : Beyond first w' := by
  obtain ⟨⟨state, hstate, hlater⟩, hhandle⟩ := hbeyond
  cases hstep with
  | grow hgrows => exact ⟨⟨state, hstate, hlater⟩, hhandle⟩
  | @refresh index session _ blobs damage outcome hindex hrefresh =>
    obtain ⟨hfollows, old, hold, hahead⟩ := h.handle _ hindex
    obtain ⟨-, hforward, found, hfound, -, -, hcases⟩ := ChainIndex.refresh_keeps rfl hfollows
      ⟨old, hold, h.saved old hold, hahead⟩ hrefresh
    have hfirst := hhandle _ hindex
    refine ⟨⟨found, hfound, ?_⟩, fun other hother => ?_⟩
    · rcases hcases with hsame | hnext
      · rw [hsame, hstate] at hfound
        cases hfound
        exact hlater
      · exact hfirst.trans hnext
    · cases hother
      exact hfirst.trans hforward
  | close => exact ⟨⟨state, hstate, hlater⟩, nofun⟩
  | openIndex nanos process counter around again hnone hd hd' hopen =>
    obtain ⟨-, -, hforward⟩ := ChainIndex.openIndex_keeps hd hd'
      (generationName_ne nanos process counter) h.saved hopen
    obtain ⟨⟨found, hfound, hnext⟩, hopened⟩ := hforward state hstate
    refine ⟨⟨found, hfound, hlater.trans hnext⟩, fun index hindex => hlater.trans ?_⟩
    exact hopened index (toOption_eq_some.mp hindex)

/-- Every run of an index keeps it sound. -/
lemma Run.sound (h : Sound w) (hrun : Run source root w w') : Sound w' := by
  induction hrun with
  | refl => exact h
  | tail _ hstep ih => exact Step.sound ih hstep

/-- No run falls behind a state that the handle had. -/
lemma Run.beyond (h : Sound w) (hindex : w.handle = some index)
    (hrun : Run source root w w') : Beyond index.state w' := by
  induction hrun with
  | refl =>
    refine ⟨(h.handle index hindex).2, fun other hother => ?_⟩
    rw [hindex] at hother
    cases hother
    exact .refl _
  | tail hbefore hstep ih => exact Step.beyond (Run.sound h hbefore) ih hstep

/-- A consumer at a revision that the handle had reads on from there. It is refused exactly if a
change after the revision was trimmed; otherwise the pages, whatever their limits, make up exactly
what was recorded after the revision, and lead from the accepted set it had to the current one. And
the next refresh reports how it changes the accepted set and the availability of content. -/
theorem changes_since_reproduces_accepted {d : Directory}
    (hstart : Run source root { directory := d } w) (hindex : w.handle = some index)
    (hrun : Run source root w w') (hindex' : w'.handle = some index') :
    (∃ all new, index.state.changes.Records all ∧ index'.state.changes.Records (all ++ new)
        ∧ (∀ limit, 1 ≤ limit → limit ≤ 10000 →
          (index'.changesSince index.revision limit = .ok none
            ↔ index'.state.changes.Trimmed index.revision.position))
        ∧ (¬ index'.state.changes.Trimmed index.revision.position →
          ∀ limits : ℕ → ℕ, (∀ n, 1 ≤ limits n ∧ limits n ≤ 10000) → ∀ fuel, new.length < fuel →
            index'.state.changes.follow limits fuel index.revision = .ok (some new))
        ∧ applyChanges index.state.accepted new = index'.state.accepted)
      ∧ ∀ (blobs : σ) damage outcome delta session,
        (ChainIndex.refresh source ⟨w'.directory, blobs, damage, outcome⟩).exec ⟨w'.saved, index'⟩
            = (.ok delta, session) →
          State.Reports delta index'.state session.index.state := by
  have hempty : Sound ({ directory := d } : World Op Ref Key) := ⟨nofun, nofun⟩
  have hsound := Run.sound hempty hstart
  have hsound' := Run.sound hsound hrun
  have hfollows' := (hsound'.handle index' hindex').1
  constructor
  · have hlater := (Run.beyond hsound hindex hrun).handle index' hindex'
    obtain ⟨all, hall⟩ := (hsound.handle index hindex).1.journal
    obtain ⟨new, hnew, happly⟩ := hlater.journal all hall
    have hgeneration : index.revision.generation = index'.state.changes.revision.generation :=
      hlater.generation.symm
    have hposition : index.revision.position = all.length := hall.position
    have hwithin : index.revision.position ≤ (all ++ new).length := by
      rw [hposition, List.length_append]
      omega
    refine ⟨all, new, hall, hnew, fun limit hlow hhigh => ?_,
      fun hkept limits hlimits fuel hfuel => ?_, happly⟩
    · rw [ChainIndex.changesSince, hnew.since_eq hgeneration hwithin ⟨hlow, hhigh⟩,
        hnew.trimmed_iff]
      by_cases hdropped : index.revision.position < ChangeLog.dropped (all ++ new)
      · rw [if_pos hdropped]
        exact iff_of_true rfl hdropped
      · rw [if_neg hdropped]
        exact iff_of_false nofun hdropped
    · rw [hnew.follow_eq hlimits hgeneration hwithin hkept, hposition, List.drop_left]
      rw [hposition, List.length_append]
      omega
  · intro blobs damage outcome delta session hrefresh
    rcases ChainIndex.refresh_cases hrefresh with
      ⟨-, hstate, hidle⟩ | ⟨next, found, s', hadvance, -, hcases⟩
    · obtain ⟨next, s', hadvance, hzero, hnone⟩ := hidle delta rfl
      obtain ⟨-, -, hnothing, -⟩ := hfollows'.advance hadvance
      obtain ⟨hadded, hremoved⟩ := hnothing hzero
      rw [hstate]
      exact .idle hadded hremoved hnone
    · rcases hcases with ⟨-, error, hresult⟩ | ⟨hstate, hresult⟩
      · cases hresult
      · cases hresult
        rw [hstate]
        exact (hfollows'.advance hadvance).2.1

end World
end EditChain.Index

namespace EditChain.Index.World

open Core Fallible Store

section Witness

local instance followedSchema : Schema OpId := messageSchema
local instance followedChecksum : Checksum := crc32cChecksum

/-- Messages without content. -/
local instance followedIndex : IndexSchema OpId ℕ ℕ where
  references _ := []
  keys _ _ := []
  items _ := []
  aliases _ := []

/-- Content of which nothing arrived. -/
def nothingArrived : ℕ → Fallible IoError Unit ContentState := fun _ => pure .missing

/-- The index of an empty chain, as it is opened for the first time. -/
def firstOpened : Except IoError (ChainIndex OpId ℕ ℕ) × Option (State OpId ℕ ℕ) :=
  (ChainIndex.openIndex nothingArrived "/chain" (generationName 1 2 3)
    ⟨Directory.empty, (), none, .done⟩ ⟨Directory.empty, (), none, .done⟩).exec none

/-- A refresh with nothing in the way. -/
def refreshedOn (d : Directory) (session : Session OpId ℕ ℕ) :
    Except IoError IndexDelta × Session OpId ℕ ℕ :=
  (ChainIndex.refresh nothingArrived ⟨d, (), none, .done⟩).exec session

/-- A message, and then another variant of it. -/
def variantFrames : Bytes := messageFrame ++ frameBytes 1 [⟨0, messageV3⟩]

/-- The index after the message, and after the variant. -/
def refreshedTwice (index : ChainIndex OpId ℕ ℕ) : Session OpId ℕ ℕ :=
  (refreshedOn (oneSegment variantFrames 3)
    (refreshedOn (oneSegment messageFrame 2) ⟨firstOpened.2, index⟩).2).2

set_option maxRecDepth 8192 in
lemma firstOpened_refreshed : firstOpened.1.toOption.any (fun index =>
    decide (index.state.changes.revision.position = 0)
      && decide ((refreshedTwice index).index.state.changes.revision.position = 2)
      && decide (((refreshedTwice index).index.state.changes.follow (fun _ => 1) 3
        index.revision).toOption = some (some [⟨messageId, .added⟩, ⟨messageId, .removed⟩])))
      = true := by
  decide +kernel

/-- The file of the message has grown to that of the variant. -/
lemma grows_variantFrames :
    (oneSegment messageFrame 2).Grows (oneSegment variantFrames 3) := by
  refine ⟨fun n file hfile => ?_, fun m n hlt hsome => ?_⟩
  · rw [getElem?_oneSegment] at hfile ⊢
    by_cases hfirst : n = 0
    · rw [if_pos hfirst] at hfile ⊢
      cases hfile
      refine ⟨_, rfl, rfl, List.prefix_append _ _, fun hsame => ?_⟩
      have hlonger : variantFrames.length ≠ messageFrame.length := by decide +kernel
      exact absurd hsame hlonger
    · rw [if_neg hfirst] at hfile
      cases hfile
  · rw [getElem?_oneSegment, if_neg (by omega)] at hsome
    exact absurd rfl hsome

/-- A message arrives after the index was opened, and then another variant of it, which takes it
back. A consumer at the first revision reads both changes, one in a page. -/
theorem changes_since_reproduces_conflict :
    ∃ (w w' : World OpId ℕ ℕ) (index index' : ChainIndex OpId ℕ ℕ),
      Run nothingArrived "/chain" { directory := Directory.empty } w ∧ w.handle = some index
        ∧ Run nothingArrived "/chain" w w' ∧ w'.handle = some index'
        ∧ index'.state.changes.follow (fun _ => 1) 3 index.revision
          = .ok (some [⟨messageId, .added⟩, ⟨messageId, .removed⟩])
        ∧ applyChanges index.state.accepted [⟨messageId, .added⟩, ⟨messageId, .removed⟩]
          = index'.state.accepted := by
  obtain ⟨index, hindex, hshows⟩ := (Option.any_eq_true ..).mp firstOpened_refreshed
  rw [Bool.and_eq_true, Bool.and_eq_true, decide_eq_true_iff, decide_eq_true_iff,
    decide_eq_true_iff] at hshows
  obtain ⟨⟨hfresh, htold⟩, hfollowed⟩ := hshows
  have hstart : Run nothingArrived "/chain" { directory := Directory.empty }
      ⟨Directory.empty, firstOpened.2, firstOpened.1.toOption⟩ :=
    Relation.ReflTransGen.single (.openIndex 1 2 3 ⟨Directory.empty, (), none, .done⟩
      ⟨Directory.empty, (), none, .done⟩ rfl rfl rfl rfl)
  have hrun : Run nothingArrived "/chain"
      ⟨Directory.empty, firstOpened.2, firstOpened.1.toOption⟩
      ⟨oneSegment variantFrames 3, (refreshedTwice index).saved,
        some (refreshedTwice index).index⟩ :=
    (((Relation.ReflTransGen.single (.grow (.of_empty _))).tail
      (.refresh () none .done hindex rfl)).tail (.grow grows_variantFrames)).tail
      (.refresh () none .done rfl rfl)
  obtain ⟨⟨all, new, hall, hnew, -, hpages, happly⟩, -⟩ :=
    changes_since_reproduces_accepted hstart hindex hrun rfl
  have hlength : (all ++ new).length = 2 := hnew.position.symm.trans htold
  have hnothing : all.length = 0 := hall.position.symm.trans hfresh
  rw [List.length_append, hnothing] at hlength
  have hkept : ¬ (refreshedTwice index).index.state.changes.Trimmed index.revision.position := by
    rw [hnew.trimmed_iff]
    unfold ChangeLog.dropped retainedChanges
    rw [List.length_append]
    omega
  have hfollow := hpages hkept (fun _ => 1) (fun _ => ⟨by omega, by omega⟩) 3 (by omega)
  have hsame : new = [⟨messageId, .added⟩, ⟨messageId, .removed⟩] := by
    rw [hfollow] at hfollowed
    exact Option.some.inj (Option.some.inj hfollowed)
  rw [hsame] at hfollow happly
  exact ⟨_, _, index, _, hstart, hindex, hrun, rfl, hfollow, happly⟩

end Witness
end EditChain.Index.World
