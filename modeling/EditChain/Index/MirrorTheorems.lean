import EditChain.Index.AnswerTheorems
import EditChain.Index.FollowTheorems
import EditChain.Index.VariantTheorems

/-!
# What a state has of its chain

Every part of a state is determined by the chain behind it: the identities, what its variants are
remembered for, the postings of the accepted operations, and their content. Building a state and
refreshing one both keep it so.
-/

namespace EditChain.Index

open Core Fallible Store
open Std (ExtTreeMap ExtTreeSet TransOrd LawfulEqOrd)

/-! ## Identities by key -/

namespace Postings

variable {Key : Type} [DecidableEq Key] {postings postings' : Postings Key}

/-- Every key has owners. -/
def Filled (postings : Postings Key) : Prop :=
  ∀ key owners, postings.lookup key = some owners → ∃ id, id ∈ owners

lemma filled_empty : (∅ : Postings Key).Filled := fun key owners h => by simp at h

lemma notMem_owners_empty {key : Key} {id : OpId} : id ∉ (∅ : Postings Key).owners key := by
  unfold owners
  rw [Finmap.lookup_empty]
  exact ExtTreeSet.not_mem_empty

lemma mem_owners_post (owner : OpId) (key other : Key) (id : OpId) :
    id ∈ (postings.post owner key).owners other
      ↔ id ∈ postings.owners other ∨ (other = key ∧ owner = id) := by
  unfold post
  by_cases hsame : other = key
  · subst hsame
    conv_lhs => unfold owners
    rw [Finmap.lookup_insert, Option.getD_some, ExtTreeSet.mem_insert, Std.compare_eq_iff_eq]
    tauto
  · conv_lhs => unfold owners
    rw [Finmap.lookup_insert_of_ne _ hsame]
    simp [owners, hsame]

lemma Filled.post (h : postings.Filled) (owner : OpId) (key : Key) :
    (postings.post owner key).Filled := by
  intro other owners hlookup
  by_cases hsame : other = key
  · subst hsame
    rw [Postings.post, Finmap.lookup_insert] at hlookup
    cases hlookup
    exact ⟨owner, by simp⟩
  · rw [Postings.post, Finmap.lookup_insert_of_ne _ hsame] at hlookup
    exact h other owners hlookup

lemma owners_unpost (owner : OpId) (key other : Key) :
    (postings.unpost owner key).owners other
      = if other = key then (postings.owners key).erase owner else postings.owners other := by
  by_cases hsame : other = key
  · subst hsame
    rw [if_pos rfl]
    unfold unpost owners
    cases hlookup : postings.lookup other with
    | none =>
      dsimp only
      rw [hlookup]
      rfl
    | some owners =>
      dsimp only
      split
      case isTrue hempty =>
        rw [Finmap.lookup_erase, Option.getD_none, Option.getD_some]
        exact (ExtTreeSet.isEmpty_iff.mp hempty).symm
      case isFalse => rw [Finmap.lookup_insert, Option.getD_some, Option.getD_some]
  · rw [if_neg hsame]
    unfold unpost owners
    cases postings.lookup key with
    | none => rfl
    | some owners =>
      dsimp only
      split
      case isTrue => rw [Finmap.lookup_erase_ne hsame]
      case isFalse => rw [Finmap.lookup_insert_of_ne _ hsame]

lemma mem_owners_unpost (owner : OpId) (key other : Key) (id : OpId) :
    id ∈ (postings.unpost owner key).owners other
      ↔ id ∈ postings.owners other ∧ ¬ (other = key ∧ owner = id) := by
  rw [owners_unpost]
  by_cases hsame : other = key
  · subst hsame
    rw [if_pos rfl, ExtTreeSet.mem_erase]
    simp only [ne_eq, Std.compare_eq_iff_eq, true_and]
    exact and_comm
  · rw [if_neg hsame]
    simp [hsame]

lemma Filled.unpost (h : postings.Filled) (owner : OpId) (key : Key) :
    (postings.unpost owner key).Filled := by
  unfold Postings.unpost
  cases hlookup : postings.lookup key with
  | none => exact h
  | some owners =>
    dsimp only
    intro other others hother
    split at hother
    case isTrue =>
      by_cases hsame : other = key
      · subst hsame
        rw [Finmap.lookup_erase] at hother
        cases hother
      · rw [Finmap.lookup_erase_ne hsame] at hother
        exact h other others hother
    case isFalse hempty =>
      by_cases hsame : other = key
      · subst hsame
        rw [Finmap.lookup_insert] at hother
        cases hother
        by_contra hnone
        apply hempty
        rw [ExtTreeSet.isEmpty_iff]
        apply ExtTreeSet.ext_mem
        intro id
        exact iff_of_false (fun hid => hnone ⟨id, hid⟩) ExtTreeSet.not_mem_empty
      · rw [Finmap.lookup_insert_of_ne _ hsame] at hother
        exact h other others hother

/-- One identity is entered under several keys. -/
lemma mem_foldl_post (keys : List Key) (owner : OpId) (postings : Postings Key) (key : Key)
    (id : OpId) :
    id ∈ (keys.foldl (fun postings key => postings.post owner key) postings).owners key
      ↔ id ∈ postings.owners key ∨ (key ∈ keys ∧ owner = id) := by
  induction keys generalizing postings with
  | nil => simp
  | cons first rest ih =>
    rw [List.foldl_cons, ih, mem_owners_post, List.mem_cons]
    tauto

lemma Filled.foldl_post (keys : List Key) (owner : OpId) (h : postings.Filled) :
    (keys.foldl (fun postings key => postings.post owner key) postings).Filled := by
  induction keys generalizing postings with
  | nil => exact h
  | cons first rest ih => exact ih (h.post owner first)

/-- One identity is taken out under several keys. -/
lemma mem_foldl_unpost (keys : List Key) (owner : OpId) (postings : Postings Key) (key : Key)
    (id : OpId) :
    id ∈ (keys.foldl (fun postings key => postings.unpost owner key) postings).owners key
      ↔ id ∈ postings.owners key ∧ ¬ (key ∈ keys ∧ owner = id) := by
  induction keys generalizing postings with
  | nil => simp
  | cons first rest ih =>
    rw [List.foldl_cons, ih, mem_owners_unpost, List.mem_cons]
    tauto

lemma Filled.foldl_unpost (keys : List Key) (owner : OpId) (h : postings.Filled) :
    (keys.foldl (fun postings key => postings.unpost owner key) postings).Filled := by
  induction keys generalizing postings with
  | nil => exact h
  | cons first rest ih => exact ih (h.unpost owner first)

/-- Where every key has owners, the owners are all there is. -/
lemma Filled.eq_of_owners (h : postings.Filled) (h' : postings'.Filled)
    (howners : ∀ key id, id ∈ postings.owners key ↔ id ∈ postings'.owners key) :
    postings = postings' := by
  apply Finmap.ext_lookup
  intro key
  have hsame : postings.owners key = postings'.owners key := ExtTreeSet.ext_mem (howners key)
  unfold owners at hsame
  cases hlookup : postings.lookup key with
  | none =>
    cases hlookup' : postings'.lookup key with
    | none => rfl
    | some owners' =>
      obtain ⟨id, hid⟩ := h' key owners' hlookup'
      rw [hlookup, hlookup'] at hsame
      rw [show owners' = ∅ from hsame.symm] at hid
      exact absurd hid ExtTreeSet.not_mem_empty
  | some owners =>
    cases hlookup' : postings'.lookup key with
    | none =>
      obtain ⟨id, hid⟩ := h key owners hlookup
      rw [hlookup, hlookup'] at hsame
      rw [show owners = ∅ from hsame] at hid
      exact absurd hid ExtTreeSet.not_mem_empty
    | some owners' =>
      rw [hlookup, hlookup'] at hsame
      exact congrArg some hsame

end Postings

/-- One identity is entered under several aliases. -/
lemma mem_foldl_alias (olds : List OpId) (owner : OpId)
    {aliases : ExtTreeMap OpId (ExtTreeSet OpId)}
    (h : ∀ old ∈ aliases, ∃ id, id ∈ aliases.getD old ∅) :
    let after := olds.foldl (fun aliases id =>
      aliases.insert id ((aliases.getD id ∅).insert owner)) aliases
    (∀ old id, id ∈ after.getD old ∅
        ↔ id ∈ aliases.getD old ∅ ∨ (old ∈ olds ∧ owner = id))
      ∧ ∀ old ∈ after, ∃ id, id ∈ after.getD old ∅ := by
  induction olds generalizing aliases with
  | nil => exact ⟨fun old id => by simp, h⟩
  | cons first rest ih =>
    have hone : ∀ old id,
        id ∈ (aliases.insert first ((aliases.getD first ∅).insert owner)).getD old ∅
          ↔ id ∈ aliases.getD old ∅ ∨ (old = first ∧ owner = id) := by
      intro old id
      rw [ExtTreeMap.getD_insert]
      by_cases hsame : old = first
      · subst hsame
        simp only [Std.compare_self, if_true, ExtTreeSet.mem_insert, Std.compare_eq_iff_eq,
          true_and]
        exact or_comm
      · have hne : ¬ compare first old = .eq := by
          intro heq
          exact hsame (Std.compare_eq_iff_eq.mp heq).symm
        simp [hne, hsame]
    have hkept : ∀ old ∈ aliases.insert first ((aliases.getD first ∅).insert owner),
        ∃ id, id ∈ (aliases.insert first ((aliases.getD first ∅).insert owner)).getD old ∅ := by
      intro old hold
      rw [ExtTreeMap.mem_insert, Std.compare_eq_iff_eq] at hold
      rcases hold with rfl | hold
      · exact ⟨owner, (hone _ _).mpr (.inr ⟨rfl, rfl⟩)⟩
      · obtain ⟨id, hid⟩ := h old hold
        exact ⟨id, (hone _ _).mpr (.inl hid)⟩
    obtain ⟨hmem, hinhabited⟩ := ih hkept
    refine ⟨fun old id => ?_, hinhabited⟩
    rw [List.foldl_cons]
    refine (hmem old id).trans ?_
    rw [hone, List.mem_cons]
    tauto

variable {Op Ref Key : Type} [Schema Op] [Checksum] [IndexSchema Op Ref Key] [DecidableEq Key]
  [Ord Ref] [TransOrd Ref] [LawfulEqOrd Ref] [DecidableEq Ref]

namespace State

variable {d : Directory} {state state' : State Op Ref Key} {truth : Ref → ContentState}
  {answers answers' : Answers Ref}

/-! ## Variants -/

/-- The operations of all retained variants. -/
def variants (d : Directory) (chain : IndexedChain Op) : Set Op :=
  {op | ∃ id location, location ∈ chain.recordLocations id ∧ readOpAt d location = .ok op}

/-- The items and aliases of a state are those of the operations. -/
structure Remembers (state : State Op Ref Key) (ops : Set Op) : Prop where
  items : ∀ item, item ∈ state.items ↔ ∃ op ∈ ops, item ∈ IndexSchema.items op
  aliases : ∀ old id, id ∈ state.aliases.getD old ∅
    ↔ ∃ op ∈ ops, old ∈ IndexSchema.aliases op ∧ Schema.id op = id
  inhabited : ∀ old ∈ state.aliases, ∃ id, id ∈ state.aliases.getD old ∅

omit [Checksum] [DecidableEq Key] [TransOrd Ref] [LawfulEqOrd Ref] [DecidableEq Ref] in
lemma Remembers.of_eq {ops : Set Op} (h : state.Remembers ops) (hitems : state'.items = state.items)
    (haliases : state'.aliases = state.aliases) : state'.Remembers ops := by
  refine ⟨?_, ?_, ?_⟩
  · rw [hitems]
    exact h.items
  · rw [haliases]
    exact h.aliases
  · rw [haliases]
    exact h.inhabited

omit [Checksum] [DecidableEq Key] [TransOrd Ref] [LawfulEqOrd Ref] [DecidableEq Ref] in
lemma Remembers.remember {ops : Set Op} (h : state.Remembers ops) (op : Op) :
    (state.remember op).Remembers (insert op ops) := by
  obtain ⟨hmem, hinhabited⟩ :=
    mem_foldl_alias (IndexSchema.aliases op) (Schema.id op) h.inhabited
  refine ⟨fun item => ?_, fun old id => ?_, hinhabited⟩
  · show item ∈ (IndexSchema.items op).foldl (fun items id => items.insert id) state.items ↔ _
    rw [ChainDelta.mem_foldl_insert, h.items]
    simp
  · refine (hmem old id).trans ?_
    rw [h.aliases]
    simp only [Set.mem_insert_iff, exists_eq_or_imp]
    exact or_comm

omit [Checksum] [DecidableEq Key] [TransOrd Ref] [LawfulEqOrd Ref] [DecidableEq Ref] in
/-- The aliases are the old identities of the operations. -/
lemma Remembers.mem_aliases {ops : Set Op} (h : state.Remembers ops) {old : OpId} :
    old ∈ state.aliases ↔ ∃ op ∈ ops, old ∈ IndexSchema.aliases op := by
  constructor
  · intro hold
    obtain ⟨id, hid⟩ := h.inhabited old hold
    obtain ⟨op, hop, hmem, -⟩ := (h.aliases old id).mp hid
    exact ⟨op, hop, hmem⟩
  · rintro ⟨op, hop, hmem⟩
    by_contra hnot
    have hid := (h.aliases old (Schema.id op)).mpr ⟨op, hop, hmem, rfl⟩
    rw [ExtTreeMap.getD_eq_fallback hnot] at hid
    exact ExtTreeSet.not_mem_empty hid

omit [Checksum] [DecidableEq Key] [TransOrd Ref] [LawfulEqOrd Ref] [DecidableEq Ref] in
/-- The operations determine the aliases. -/
lemma Remembers.aliases_eq {ops : Set Op} (h : state.Remembers ops) (h' : state'.Remembers ops) :
    state.aliases = state'.aliases := by
  have hsets : ∀ old, state.aliases.getD old ∅ = state'.aliases.getD old ∅ := by
    intro old
    apply ExtTreeSet.ext_mem
    intro id
    rw [h.aliases, h'.aliases]
  have hkeys : ∀ old, old ∈ state.aliases ↔ old ∈ state'.aliases := by
    intro old
    rw [h.mem_aliases, h'.mem_aliases]
  apply ExtTreeMap.ext_getElem?
  intro old
  by_cases hold : old ∈ state.aliases
  · have hset := hsets old
    rw [ExtTreeMap.getD_eq_getD_getElem?, ExtTreeMap.getD_eq_getD_getElem?,
      ExtTreeMap.getElem?_eq_some_getElem hold,
      ExtTreeMap.getElem?_eq_some_getElem ((hkeys old).mp hold)] at hset
    rw [ExtTreeMap.getElem?_eq_some_getElem hold,
      ExtTreeMap.getElem?_eq_some_getElem ((hkeys old).mp hold)]
    exact congrArg some hset
  · rw [ExtTreeMap.getElem?_eq_none hold,
      ExtTreeMap.getElem?_eq_none fun hold' => hold ((hkeys old).mpr hold')]

omit [DecidableEq Key] [TransOrd Ref] [LawfulEqOrd Ref] [DecidableEq Ref] in
/-- Conflicting variants are remembered. -/
lemma Remembers.rememberConflicts {ops : Set Op} {locations : List OpRecordLocation}
    (h : state.Remembers ops) (hexec : state.rememberConflicts d locations = .ok state') :
    state'.Remembers (ops ∪ {op | ∃ location ∈ locations, readOpAt d location = .ok op})
      ∧ state'.identities = state.identities ∧ state'.postings = state.postings := by
  induction locations generalizing state ops with
  | nil =>
    cases hexec
    refine ⟨?_, rfl, rfl⟩
    simpa using h
  | cons location rest ih =>
    rw [State.rememberConflicts] at hexec
    obtain ⟨op, hread, hexec⟩ := bind_eq_ok.mp hexec
    obtain ⟨hrest, hidentities, hpostings⟩ := ih (h.remember op) hexec
    refine ⟨?_, hidentities, hpostings⟩
    have heq : ops ∪ {op | ∃ place ∈ location :: rest, readOpAt d place = .ok op}
        = insert op ops ∪ {op | ∃ place ∈ rest, readOpAt d place = .ok op} := by
      ext other
      simp only [Set.mem_union, Set.mem_insert_iff, Set.mem_ofPred_eq, List.mem_cons,
        exists_eq_or_imp, hread, Except.ok.injEq]
      tauto
    rw [heq]
    exact hrest

/-! ## Postings -/

/-- The postings of a state are those of the accepted operations. -/
structure Posts (state : State Op Ref Key) (accepted : Accepted Op) : Prop where
  filled : state.postings.Filled
  mem : ∀ key id, id ∈ state.postings.owners key ↔ ∃ location op,
    accepted id = some (location, op) ∧ key ∈ IndexSchema.keys op (IndexSchema.references op)

omit [Checksum] [LawfulEqOrd Ref] [DecidableEq Ref] in
/-- One operation is retracted. -/
lemma Posts.remove {accepted : Accepted Op} (h : state.Posts accepted) {id : OpId}
    {location : OpRecordLocation} {op : Op} (hsome : accepted id = some (location, op))
    (hid : Schema.id op = id) :
    ({ state with records := state.records.erase id }.remove op).Posts
      (Function.update accepted id none) := by
  refine ⟨h.filled.foldl_unpost _ (Schema.id op), fun key other => ?_⟩
  refine (Postings.mem_foldl_unpost _ _ _ key other).trans ?_
  rw [h.mem, hid]
  by_cases hsame : id = other
  · subst hsame
    simp [hsome]
  · rw [Function.update_of_ne (Ne.symm hsame)]
    simp [hsame]

/-- Several identities are retracted. -/
lemma Posts.retract {accepted : Accepted Op} {ids : List OpId} (h : state.Posts accepted)
    (hderived : state.Derived accepted) (hbacked : Backed d accepted)
    (hlasts : state.content.Lasts truth) (hretract : state.retract d ids = .ok state') :
    state'.Posts (fun id => if id ∈ ids then none else accepted id)
      ∧ state'.content.Lasts truth ∧ state'.identities = state.identities
      ∧ state'.items = state.items ∧ state'.aliases = state.aliases := by
  induction ids generalizing state accepted with
  | nil =>
    cases hretract
    exact ⟨by simpa using h, hlasts, rfl, rfl, rfl⟩
  | cons id ids ih =>
    rw [State.retract] at hretract
    cases hrecord : state.records[id]? with
    | none =>
      rw [hrecord] at hretract
      have hnone : accepted id = none := by
        rw [hderived.records, Option.map_eq_none_iff] at hrecord
        exact hrecord
      obtain ⟨hrest, hsame⟩ := ih h hderived hbacked hlasts hretract
      refine ⟨?_, hsame⟩
      have heq : (fun other => if other ∈ id :: ids then none else accepted other)
          = fun other => if other ∈ ids then none else accepted other := by
        funext other
        by_cases hother : other = id
        · subst hother
          simp [hnone]
        · simp [hother]
      rw [heq]
      exact hrest
    | some location =>
      rw [hrecord] at hretract
      obtain ⟨op, hread, hretract⟩ := bind_eq_ok.mp hretract
      rw [hderived.records, Option.map_eq_some_iff] at hrecord
      obtain ⟨⟨place, found⟩, haccepted, rfl⟩ := hrecord
      obtain ⟨hback, hid⟩ := hbacked id place found haccepted
      obtain rfl : found = op := Except.ok.inj (hback.symm.trans hread)
      have hbacked' : Backed d (Function.update accepted id none) := by
        intro other at' op' hother
        by_cases hsame : other = id
        · subst hsame
          simp at hother
        · rw [Function.update_of_ne hsame] at hother
          exact hbacked other at' op' hother
      have hlasts' : ContentIndex.Lasts truth
          ({ state with records := state.records.erase id }.remove found).content := by
        show ContentIndex.Lasts truth ((IndexSchema.references found).foldl _ state.content)
        clear hretract
        generalize state.content = content at hlasts
        induction IndexSchema.references found generalizing content with
        | nil => exact hlasts
        | cons first rest ihrest => exact ihrest _ (hlasts.remove first _)
      obtain ⟨hrest, hlast, hidentities, hitems, haliases⟩ :=
        ih (h.remove haccepted hid) (hderived.remove haccepted hid).1 hbacked' hlasts' hretract
      refine ⟨?_, hlast, hidentities, hitems, haliases⟩
      have heq : (fun other => if other ∈ id :: ids then none else accepted other)
          = fun other => if other ∈ ids then none else Function.update accepted id none other := by
        funext other
        by_cases hother : other = id
        · subst hother
          simp
        · simp [hother]
      rw [heq]
      exact hrest

/-! ## Adding -/

/-- What several operations bring to a state. -/
structure Gains (truth : Ref → ContentState) (operations : List (Op × OpRecordLocation))
    (before after : State Op Ref Key) : Prop where
  tail : after.tail = before.tail
  identities : after.identities = before.identities
  remembers : ∀ ops, before.Remembers ops →
    after.Remembers (ops ∪ {op | ∃ p ∈ operations, p.1 = op})
  filled : before.postings.Filled → after.postings.Filled
  mem : ∀ key id, id ∈ after.postings.owners key ↔ id ∈ before.postings.owners key
    ∨ ∃ p ∈ operations, Schema.id p.1 = id
      ∧ key ∈ IndexSchema.keys p.1 (IndexSchema.references p.1)
  lasts : before.content.Lasts truth → after.content.Lasts truth
    ∧ (before.content.Current truth → after.content.Current truth)

omit [Checksum] in
lemma addContent_lasts (hhonest : Honest truth answers) {references : List Ref} {owner : OpId}
    {index index' : ContentIndex Ref} {reads reads' : ℕ} (h : index.Lasts truth)
    (hexec : (addContent answering owner references index reads).exec answers
      = (.ok (index', reads'), answers')) :
    answers' = answers ∧ index'.Lasts truth ∧ (index.Current truth → index'.Current truth) := by
  induction references generalizing index reads with
  | nil =>
    cases hexec
    exact ⟨rfl, h, id⟩
  | cons first rest ih =>
    rw [addContent] at hexec
    obtain ⟨⟨middle, reads₁⟩, answers₁, hadd, hmore⟩ := exec_bind_eq_ok.mp hexec
    obtain ⟨rfl, hlasts, hcurrent⟩ := h.add hhonest hadd
    obtain ⟨hsame, hlast, hcurrent'⟩ := ih hlasts hmore
    exact ⟨hsame, hlast, fun hnow => hcurrent' (hcurrent hnow)⟩

omit [Checksum] in
lemma addContent_answers {references : List Ref} {owner : OpId}
    {index index' : ContentIndex Ref} {reads reads' : ℕ}
    (hexec : (addContent answering owner references index reads).exec answers
      = (.ok (index', reads'), answers')) : answers' = answers := by
  induction references generalizing index reads with
  | nil =>
    cases hexec
    rfl
  | cons first rest ih =>
    rw [addContent] at hexec
    obtain ⟨⟨middle, reads₁⟩, answers₁, hadd, hmore⟩ := exec_bind_eq_ok.mp hexec
    obtain ⟨rfl, -⟩ := ContentIndex.add_cases hadd
    exact ih hmore

omit [Checksum] in
/-- One operation is accepted. -/
lemma gains_add (hhonest : Honest truth answers) {op : Op} {location : OpRecordLocation}
    {reads reads' : ℕ} (hadd : (state.add answering op location reads).exec answers
      = (.ok (state', reads'), answers')) :
    answers' = answers ∧ Gains truth [(op, location)] state state' := by
  unfold State.add at hadd
  obtain ⟨⟨content, reads₁⟩, answers₁, hcontent, hdone⟩ := exec_bind_eq_ok.mp hadd
  obtain rfl := addContent_answers hcontent
  cases hdone
  refine ⟨rfl, rfl, rfl, fun ops h => ?_, fun h => ?_, fun key id => ?_, fun h => ?_⟩
  · have hone : ops ∪ {other | ∃ p ∈ [(op, location)], p.1 = other} = insert op ops := by
      ext other
      simp [eq_comm, or_comm]
    rw [hone]
    exact (h.remember op).of_eq rfl rfl
  · exact h.foldl_post _ _
  · refine (Postings.mem_foldl_post _ _ _ key id).trans ?_
    simp only [List.mem_singleton, exists_eq_left]
    exact or_congr_right and_comm
  · obtain ⟨-, hlasts, hcurrent⟩ := addContent_lasts hhonest h hcontent
    exact ⟨hlasts, hcurrent⟩

omit [Checksum] in
/-- Several operations are accepted. -/
lemma gains_addAll (hhonest : Honest truth answers) {operations : List (Op × OpRecordLocation)}
    {reads reads' : ℕ} (hadd : (addAll answering operations state reads).exec answers
      = (.ok (state', reads'), answers')) :
    answers' = answers ∧ Gains truth operations state state' := by
  induction operations generalizing state reads with
  | nil =>
    cases hadd
    exact ⟨rfl, rfl, rfl, fun ops h => by simpa using h, id, fun key id => by simp,
      fun h => ⟨h, id⟩⟩
  | cons first rest ih =>
    obtain ⟨op, location⟩ := first
    rw [State.addAll] at hadd
    obtain ⟨⟨middle, reads₁⟩, answers₁, hone, hmore⟩ := exec_bind_eq_ok.mp hadd
    obtain ⟨rfl, hfirst⟩ := gains_add hhonest hone
    obtain ⟨hsame, hrest⟩ := ih hmore
    refine ⟨hsame, hrest.tail.trans hfirst.tail, hrest.identities.trans hfirst.identities,
      fun ops h => ?_,
      fun h => hrest.filled (hfirst.filled h), fun key id => ?_, fun h => ?_⟩
    · have heq : ops ∪ {other | ∃ p ∈ (op, location) :: rest, p.1 = other}
          = ops ∪ {other | ∃ p ∈ [(op, location)], p.1 = other}
            ∪ {other | ∃ p ∈ rest, p.1 = other} := by
        ext other
        simp only [Set.mem_union, Set.mem_ofPred_eq, List.mem_cons, exists_eq_or_imp,
          List.not_mem_nil, or_false, exists_eq_left, or_assoc]
      rw [heq]
      exact hrest.remembers _ (hfirst.remembers ops h)
    · rw [hrest.mem, hfirst.mem]
      simp only [List.mem_cons, exists_eq_or_imp, List.not_mem_nil, or_false, exists_eq_left,
        or_assoc]
    · obtain ⟨hlasts, hcurrent⟩ := hfirst.lasts h
      obtain ⟨hlasts', hcurrent'⟩ := hrest.lasts hlasts
      exact ⟨hlasts', fun hnow => hcurrent' (hcurrent hnow)⟩

/-! ## Mirrors -/

/-- Every part of a state is that of its chain; content that was available still is. -/
structure Mirrors (d : Directory) (truth : Ref → ContentState) (state : State Op Ref Key) :
    Prop where
  follows : state.Follows d
  reaches : Tail.Reaches d state.tail
  tidy : state.tail.chain.Tidy
  located : state.tail.chain.Located d
  identities : ∀ id, id ∈ state.identities ↔ state.tail.chain.entries[id]?.isSome
  remembers : state.Remembers (variants d state.tail.chain)
  posts : state.Posts (acceptedBy state.tail.chain)
  lasts : state.content.Lasts truth

/-- Growth does not change what the variants are. -/
lemma variants_grows {d' : Directory} {chain : IndexedChain Op} (h : chain.Located d)
    (hgrows : d.Grows d') : variants d' chain = variants d chain := by
  ext op
  constructor
  · intro hop
    obtain ⟨id, location, hlocation, hread⟩ := hop
    obtain ⟨found, hfound, -⟩ := h id location hlocation
    have hsame := readOpAt_grows hgrows hfound
    rw [hread] at hsame
    cases hsame
    exact ⟨id, location, hlocation, hfound⟩
  · intro hop
    obtain ⟨id, location, hlocation, hread⟩ := hop
    exact ⟨id, location, hlocation, readOpAt_grows hgrows hread⟩

omit [LawfulEqOrd Ref] [DecidableEq Ref] in
lemma Mirrors.grows {d' : Directory} {truth' : Ref → ContentState} (h : state.Mirrors d truth)
    (hgrows : d.Grows d')
    (hstays : ∀ reference, truth reference = .available → truth' reference = .available) :
    state.Mirrors d' truth' where
  follows := h.follows.grows hgrows
  reaches := h.reaches.grows hgrows
  tidy := h.tidy
  located := h.located.grows hgrows
  identities := h.identities
  remembers := by
    rw [variants_grows h.located hgrows]
    exact h.remembers
  posts := h.posts
  lasts := h.lasts.mono hstays

/-- The variants after a delta are those before, those of the identities that it retracts, and
those that it adds. -/
lemma variants_eq {delta : ChainDelta Op} {before after : IndexedChain Op}
    (htracks : delta.Tracks d before after) (hspreads : delta.Spreads d before after) :
    variants d after = variants d before
      ∪ {op | ∃ location ∈ delta.removed.toList.flatMap after.recordLocations,
          readOpAt d location = .ok op}
      ∪ {op | ∃ p ∈ delta.added.toList.map Prod.snd, p.1 = op} := by
  ext op
  constructor
  · intro hop
    obtain ⟨id, location, hlocation, hread⟩ := hop
    by_cases hremoved : id ∈ delta.removed
    · refine .inl (.inr ⟨location, ?_, hread⟩)
      exact List.mem_flatMap.mpr ⟨id, ExtTreeSet.mem_toList.mpr hremoved, hlocation⟩
    · cases hadded : delta.added[id]? with
      | none =>
        rw [hspreads.kept id hremoved hadded] at hlocation
        exact .inl (.inl ⟨id, location, hlocation, hread⟩)
      | some found =>
        obtain ⟨op', location'⟩ := found
        rw [hspreads.single id op' location' hadded, List.mem_singleton] at hlocation
        subst hlocation
        obtain ⟨-, -, hread', -⟩ := htracks.added id op' location hadded
        rw [hread'] at hread
        cases hread
        refine .inr ⟨(op, location), List.mem_map.mpr ⟨(id, op, location), ?_, rfl⟩, rfl⟩
        exact ExtTreeMap.mem_toList_iff_getElem?_eq_some.mpr hadded
  · intro hop
    rcases hop with (⟨id, location, hlocation, hread⟩ | ⟨location, hlocation, hread⟩) | ⟨p, hp, rfl⟩
    · exact ⟨id, location, hspreads.grown id location hlocation, hread⟩
    · obtain ⟨id, -, hmem⟩ := List.mem_flatMap.mp hlocation
      exact ⟨id, location, hmem, hread⟩
    · obtain ⟨⟨id, op, location⟩, hmem, rfl⟩ := List.mem_map.mp hp
      rw [ExtTreeMap.mem_toList_iff_getElem?_eq_some] at hmem
      obtain ⟨-, -, hread, -⟩ := htracks.added id op location hmem
      refine ⟨id, location, ?_, hread⟩
      rw [hspreads.single id op location hmem]
      exact List.mem_singleton_self _

/-- The identities after a delta. -/
lemma isSome_entries {delta : ChainDelta Op} {before after : IndexedChain Op}
    (htracks : delta.Tracks d before after) (id : OpId) :
    after.entries[id]?.isSome
      ↔ id ∈ delta.added.keys ∨ id ∈ delta.removed ∨ before.entries[id]?.isSome := by
  rw [ExtTreeMap.mem_keys, ExtTreeMap.mem_iff_isSome_getElem?]
  constructor
  · intro hsome
    by_cases hremoved : id ∈ delta.removed
    · exact .inr (.inl hremoved)
    · cases hadded : delta.added[id]? with
      | some found => exact .inl rfl
      | none =>
        rw [htracks.kept id hremoved hadded] at hsome
        exact .inr (.inr hsome)
  · intro hcase
    rcases hcase with hadded | hremoved | hold
    · obtain ⟨⟨op, location⟩, hsome⟩ := Option.isSome_iff_exists.mp hadded
      obtain ⟨-, hafter, -, -⟩ := htracks.added id op location hsome
      rw [hafter]
      rfl
    · obtain ⟨entry, hentry, -⟩ := htracks.removed id hremoved
      rw [hentry]
      rfl
    · exact htracks.seen id hold

omit [DecidableEq Key] [Ord Ref] [TransOrd Ref] [LawfulEqOrd Ref] [DecidableEq Ref] in
/-- What is posted after a delta was posted before, and is not retracted, or is added. -/
lemma posted_iff {delta : ChainDelta Op} {before after : IndexedChain Op}
    (htracks : delta.Tracks d before after) (key : Key) (id : OpId) :
    ((∃ location op, (if id ∈ delta.removed.toList then none else acceptedBy before id)
          = some (location, op) ∧ key ∈ IndexSchema.keys op (IndexSchema.references op))
        ∨ ∃ p ∈ delta.added.toList.map Prod.snd, Schema.id p.1 = id
          ∧ key ∈ IndexSchema.keys p.1 (IndexSchema.references p.1))
      ↔ ∃ location op, acceptedBy after id = some (location, op)
        ∧ key ∈ IndexSchema.keys op (IndexSchema.references op) := by
  by_cases hadded : ∃ p ∈ delta.added.toList.map Prod.snd, Schema.id p.1 = id
  · obtain ⟨p, hp, rfl⟩ := hadded
    obtain ⟨hnew, hafter⟩ := mem_added htracks hp
    rw [hnew, ite_self, hafter]
    constructor
    · intro hcase
      rcases hcase with ⟨location, op, hnone, -⟩ | ⟨q, hq, hid, hkey⟩
      · cases hnone
      · obtain ⟨-, hsame⟩ := mem_added htracks hq
        rw [hid, hafter] at hsame
        exact ⟨q.2, q.1, hsame, hkey⟩
    · intro hcase
      obtain ⟨location, op, hsome, hkey⟩ := hcase
      cases hsome
      exact .inr ⟨p, hp, rfl, hkey⟩
  · have hnone : delta.added[id]? = none := by
      by_contra hne
      obtain ⟨⟨op, location⟩, hsome⟩ := Option.ne_none_iff_exists'.mp hne
      obtain ⟨-, -, -, hid⟩ := htracks.added id op location hsome
      refine hadded ⟨(op, location), List.mem_map.mpr ⟨(id, op, location), ?_, rfl⟩, hid⟩
      exact ExtTreeMap.mem_toList_iff_getElem?_eq_some.mpr hsome
    have hafter : acceptedBy after id
        = if id ∈ delta.removed.toList then none else acceptedBy before id := by
      simp only [ExtTreeSet.mem_toList]
      by_cases hremoved : id ∈ delta.removed
      · obtain ⟨entry, hentry, hquarantined⟩ := htracks.removed id hremoved
        rw [if_pos hremoved]
        unfold acceptedBy
        rw [hentry, Option.bind_some, hquarantined]
        rfl
      · rw [if_neg hremoved]
        unfold acceptedBy
        rw [htracks.kept id hremoved hnone]
    rw [hafter]
    constructor
    · intro hcase
      rcases hcase with hold | ⟨p, hp, hid, -⟩
      · exact hold
      · exact absurd ⟨p, hp, hid⟩ hadded
    · exact .inl

/-- Applying a delta mirrors the chain after it, with the present availability of content. -/
lemma Mirrors.apply {delta : ChainDelta Op} {before : IndexedChain Op} {changed : ExtTreeSet OpId}
    {reads reads' : ℕ} (hderived : state.Derived (acceptedBy before))
    (hbacked : Backed d (acceptedBy before))
    (hidentities : ∀ id, id ∈ state.identities ↔ before.entries[id]?.isSome)
    (hremembers : state.Remembers (variants d before)) (hposts : state.Posts (acceptedBy before))
    (hlasts : state.content.Lasts truth) (hhonest : Honest truth answers)
    (htracks : delta.Tracks d before state.tail.chain)
    (hspreads : delta.Spreads d before state.tail.chain)
    (hexec : (State.apply answering d delta state reads).exec answers
      = (.ok (state', changed, reads'), answers')) :
    (∀ id, id ∈ state'.identities ↔ state.tail.chain.entries[id]?.isSome)
      ∧ state'.Remembers (variants d state.tail.chain)
      ∧ state'.Posts (acceptedBy state.tail.chain)
      ∧ state'.content.Lasts truth ∧ state'.content.Current truth := by
  unfold State.apply at hexec
  obtain ⟨retracted, s₁, hretract, hexec⟩ := exec_bind_eq_ok.mp hexec
  obtain ⟨hretract', rfl⟩ := Prod.mk.inj hretract
  obtain ⟨remembered, s₂, hremember, hexec⟩ := exec_bind_eq_ok.mp hexec
  obtain ⟨hremember', rfl⟩ := Prod.mk.inj hremember
  obtain ⟨⟨content, changed₁, reads₁⟩, s₃, hrefresh, hexec⟩ := exec_bind_eq_ok.mp hexec
  obtain ⟨⟨final, reads₂⟩, s₄, hadd, hexec⟩ := exec_bind_eq_ok.mp hexec
  cases hexec
  have hstart : ∀ ids, ({ state with identities := ids } : State Op Ref Key).Posts
      (acceptedBy before) := fun ids => ⟨hposts.filled, hposts.mem⟩
  have hcopy : ∀ ids, ({ state with identities := ids } : State Op Ref Key).Derived
      (acceptedBy before) := fun ids => hderived.of_eq rfl rfl
  generalize hids : delta.added.keys.foldl (fun ids id => ids.insert id)
    (delta.removed.toList.foldl (fun ids id => ids.insert id) state.identities) = ids at hretract'
  obtain ⟨hposts₁, hlasts₁, hids₁, hitems₁, haliases₁⟩ :=
    (hstart ids).retract (hcopy ids) hbacked hlasts hretract'
  obtain ⟨-, -, -, htail₁⟩ := (hcopy _).retract hbacked hretract'
  have hremembers₁ : retracted.Remembers (variants d before) := hremembers.of_eq hitems₁ haliases₁
  obtain ⟨hremembers₂, hids₂, hpostings₂⟩ := hremembers₁.rememberConflicts hremember'
  obtain ⟨-, hcontent₂, -, -⟩ := rememberConflicts_frame hremember'
  rw [hcontent₂] at hrefresh
  obtain ⟨hsame, hlasts₂, hcurrent₂⟩ := hlasts₁.refresh hhonest hrefresh
  rw [hsame] at hadd
  obtain ⟨-, hgains⟩ := gains_addAll hhonest hadd
  obtain ⟨hlasts₃, hcurrent₃⟩ := hgains.lasts hlasts₂
  refine ⟨fun id => ?_, ?_, ⟨?_, fun key id => ?_⟩, hlasts₃, hcurrent₃ hcurrent₂⟩
  · rw [hgains.identities]
    show id ∈ remembered.identities ↔ _
    rw [hids₂, hids₁]
    show id ∈ ids ↔ _
    rw [← hids, ChainDelta.mem_foldl_insert, ChainDelta.mem_foldl_insert, ExtTreeSet.mem_toList,
      hidentities, isSome_entries htracks]
  · rw [variants_eq htracks hspreads]
    apply hgains.remembers
    rw [htail₁] at hremembers₂
    exact hremembers₂.of_eq rfl rfl
  · apply hgains.filled
    show remembered.postings.Filled
    rw [hpostings₂]
    exact hposts₁.filled
  · rw [hgains.mem]
    show (id ∈ remembered.postings.owners key ∨ _) ↔ _
    rw [hpostings₂, hposts₁.mem]
    exact posted_iff htracks key id

/-- What a refresh does to its copy. -/
lemma Mirrors.advance {delta : IndexDelta} (h : state.Mirrors d truth)
    (hhonest : Honest truth answers)
    (hexec : (state.advance answering d).exec answers = (.ok (state', delta), answers')) :
    state'.Mirrors d truth ∧ state'.content.Current truth
      ∧ (∀ k, (∀ n : ℕ, d.segments[n]?.isSome ↔ n < k) → Tail.Finished d k state'.tail)
      ∧ (delta.work.records.bytesRead = 0 → state'.tail.chain = state.tail.chain) := by
  have hfollows := (h.follows.advance hexec).1
  unfold State.advance at hexec
  obtain ⟨⟨records, tail⟩, s₁, hdrained, hexec⟩ := exec_bind_eq_ok.mp hexec
  obtain ⟨hdrained', rfl⟩ := Prod.mk.inj hdrained
  obtain ⟨⟨next, changed, reads⟩, s₂, happly, hexec⟩ := exec_bind_eq_ok.mp hexec
  obtain ⟨changes, s₃, hchanges, hexec⟩ := exec_bind_eq_ok.mp hexec
  obtain ⟨hchanges', rfl⟩ := Prod.mk.inj hchanges
  cases hexec
  have hdrain := Tail.drained_eq_ok hdrained'
  obtain ⟨htracks, -⟩ := Tail.drain_tracks hdrain
  have hspreads := (Tail.drain_tells Tail.tells_spreads hdrain).1 h.tidy
  obtain ⟨hreaches, hfinished, hidle⟩ := Tail.drain_reaches h.reaches hdrain
  have hcopy : ({ state with tail := tail } : State Op Ref Key).Derived
      (acceptedBy state.tail.chain) := h.follows.derived.of_eq rfl rfl
  obtain ⟨-, -, -, htail⟩ := hcopy.apply h.follows.backed htracks happly
  obtain ⟨hidentities, hremembers, hposts, hlasts, hcurrent⟩ := Mirrors.apply hcopy
    h.follows.backed h.identities (h.remembers.of_eq rfl rfl) ⟨h.posts.filled, h.posts.mem⟩ h.lasts
    hhonest htracks hspreads happly
  have hsame : next.tail = tail := htail
  refine ⟨⟨hfollows, ?_, ?_, ?_, ?_, ?_, ?_, hlasts⟩, hcurrent, ?_, ?_⟩
  · show Tail.Reaches d next.tail
    rw [hsame]
    exact hreaches
  · show next.tail.chain.Tidy
    rw [hsame]
    exact hspreads.tidy
  · show next.tail.chain.Located d
    rw [hsame]
    intro id location hlocation
    rcases hspreads.located id location hlocation with hold | hnew
    · exact h.located id location hold
    · exact hnew
  · show ∀ id, id ∈ next.identities ↔ next.tail.chain.entries[id]?.isSome
    rw [hsame]
    exact hidentities
  · show Remembers _ (variants d next.tail.chain)
    rw [hsame]
    exact hremembers.of_eq rfl rfl
  · show Posts _ (acceptedBy next.tail.chain)
    rw [hsame]
    exact ⟨hposts.filled, hposts.mem⟩
  · show ∀ k, _ → Tail.Finished d k next.tail
    rw [hsame]
    exact hfinished
  · show _ → next.tail.chain = _
    rw [hsame]
    exact hidle

/-! ## Building -/

omit [IndexSchema Op Ref Key] [DecidableEq Key] [Ord Ref] [TransOrd Ref] [LawfulEqOrd Ref]
  [DecidableEq Ref] in
/-- The variants are the accepted operations, and all variants of the other identities. -/
lemma variants_eq_shared {chain : IndexedChain Op} (htidy : chain.Tidy)
    (hbacked : Backed d (acceptedBy chain)) :
    variants d chain = {op | op ∈ chain.sharedOps}
      ∪ {op | ∃ location ∈ (chain.identities.filter fun id =>
          (chain.get id).isNone).flatMap chain.recordLocations, readOpAt d location = .ok op} := by
  have haccepted : ∀ id location op, acceptedBy chain id = some (location, op) →
      chain.recordLocations id = [location] := by
    intro id location op hsome
    exact htidy.recordLocations_eq (acceptedBy_eq_some.mp hsome)
  ext op
  constructor
  · intro hop
    obtain ⟨id, location, hlocation, hread⟩ := hop
    cases hsome : acceptedBy chain id with
    | some found =>
      obtain ⟨place, kept⟩ := found
      rw [haccepted id place kept hsome, List.mem_singleton] at hlocation
      subst hlocation
      obtain ⟨hback, -⟩ := hbacked id location kept hsome
      rw [hread] at hback
      cases hback
      exact .inl (mem_sharedOps.mpr ⟨id, location, hsome⟩)
    | none =>
      refine .inr ⟨location, List.mem_flatMap.mpr ⟨id, ?_, hlocation⟩, hread⟩
      rw [List.mem_filter]
      refine ⟨?_, by rw [get_eq_acceptedBy, hsome]; rfl⟩
      -- an identity with a variant is retained
      show id ∈ chain.entries.keys
      rw [ExtTreeMap.mem_keys, ExtTreeMap.mem_iff_isSome_getElem?]
      by_contra hgone
      rw [Option.not_isSome_iff_eq_none] at hgone
      have hnone : chain.conflicts[id]? = none := by
        apply htidy.conflicts_eq_none
        intro entry hentry
        rw [hgone] at hentry
        cases hentry
      unfold IndexedChain.recordLocations at hlocation
      rw [hgone, hnone] at hlocation
      cases hlocation
  · intro hop
    rcases hop with hshared | ⟨location, hlocation, hread⟩
    · obtain ⟨id, location, hsome⟩ := mem_sharedOps.mp hshared
      refine ⟨id, location, ?_, (hbacked id location op hsome).1⟩
      rw [haccepted id location op hsome]
      exact List.mem_singleton_self _
    · obtain ⟨id, -, hmem⟩ := List.mem_flatMap.mp hlocation
      exact ⟨id, location, hmem, hread⟩

/-- A state that is built mirrors its chain, with the present availability of content. -/
lemma build_mirrors {root name : String} (hname : name ≠ "") (hhonest : Honest truth answers)
    (hexec : (build answering root d name).exec answers = (.ok state, answers')) :
    state.Mirrors d truth ∧ state.content.Current truth
      ∧ ∃ k, (∀ n : ℕ, d.segments[n]?.isSome ↔ n < k) ∧ Tail.Finished d k state.tail := by
  have hfollows := (build_follows hname hexec).1
  unfold build at hexec
  obtain ⟨tail, s₁, htail, hexec⟩ := exec_bind_eq_ok.mp hexec
  obtain ⟨hopen, rfl⟩ := Prod.mk.inj htail
  obtain ⟨operations, s₂, hlocated, hexec⟩ := exec_bind_eq_ok.mp hexec
  obtain ⟨hlocated', rfl⟩ := Prod.mk.inj hlocated
  obtain ⟨⟨added, reads⟩, s₃, hadd, hexec⟩ := exec_bind_eq_ok.mp hexec
  obtain ⟨hremember, rfl⟩ := Prod.mk.inj hexec
  have hbacked := openAll_backed hopen
  obtain ⟨⟨k, hdense⟩, delta, hdrain⟩ := Tail.openAll_eq_ok hopen
  have hempty : (TailCorpus.empty : IndexedChain Op).Tidy := by
    intro id hid
    exact absurd (by simp [TailCorpus.empty]) hid
  have hspreads := (Tail.drain_tells Tail.tells_spreads hdrain).1 hempty
  obtain ⟨hreaches, hfinished, -⟩ := Tail.drain_reaches (Tail.reaches_empty d root) hdrain
  obtain ⟨-, hgains⟩ := gains_addAll hhonest hadd
  obtain ⟨hmap, -⟩ := located_spec hlocated'
  have hin := located_accepted hbacked hlocated'
  have hnothing : ∀ log ids, ({ changes := log, tail := tail, identities := ids }
      : State Op Ref Key).Remembers ∅ := by
    intro log ids
    exact ⟨fun item => by simp, fun old id => by simp, fun old hold => by simp at hold⟩
  obtain ⟨hremembers, hidentities, hpostings⟩ :=
    (hgains.remembers ∅ (hnothing _ _)).rememberConflicts hremember
  obtain ⟨-, hcontent, -, htails⟩ := rememberConflicts_frame hremember
  obtain ⟨hlasts, hcurrent⟩ := hgains.lasts ContentIndex.lasts_empty
  have hsame : state.tail = tail := htails.trans hgains.tail
  have hshared : {op | ∃ p ∈ operations, p.1 = op} = {op | op ∈ tail.chain.sharedOps} := by
    ext op
    rw [← hmap]
    simp only [Set.mem_ofPred_eq, List.mem_map]
  rw [hshared, Set.empty_union] at hremembers
  rw [← variants_eq_shared hspreads.tidy hbacked] at hremembers
  refine ⟨⟨hfollows, ?_, ?_, ?_, ?_, ?_, ⟨?_, ?_⟩, ?_⟩, ?_, k, hdense, ?_⟩
  · rw [hsame]
    exact hreaches
  · rw [hsame]
    exact hspreads.tidy
  · rw [hsame]
    intro id location hlocation
    rcases hspreads.located id location hlocation with hold | hnew
    · have hnone : (Tail.empty root : Tail (IndexedChain Op)).chain.recordLocations id = [] := by
        simp [IndexedChain.recordLocations, Tail.empty, TailCorpus.empty]
      rw [hnone] at hold
      cases hold
    · exact hnew
  · rw [hsame, hidentities, hgains.identities]
    intro id
    show id ∈ tail.chain.identities.foldl _ ∅ ↔ _
    rw [ChainDelta.mem_foldl_insert]
    unfold IndexedChain.identities
    rw [ExtTreeMap.mem_keys, ExtTreeMap.mem_iff_isSome_getElem?]
    simp
  · rw [hsame]
    exact hremembers
  · rw [hpostings]
    exact hgains.filled Postings.filled_empty
  · rw [hpostings, hsame]
    intro key id
    rw [hgains.mem]
    constructor
    · intro hcase
      rcases hcase with hold | ⟨p, hp, rfl, hkey⟩
      · exact absurd hold Postings.notMem_owners_empty
      · exact ⟨p.2, p.1, hin p hp, hkey⟩
    · intro hcase
      obtain ⟨location, op, hsome, hkey⟩ := hcase
      have hop : op ∈ operations.map Prod.fst := by
        rw [hmap]
        exact mem_sharedOps.mpr ⟨id, location, hsome⟩
      obtain ⟨p, hp, rfl⟩ := List.mem_map.mp hop
      exact .inr ⟨p, hp, (hbacked id location p.1 hsome).2, hkey⟩
  · rw [hcontent]
    exact hlasts
  · rw [hcontent]
    exact hcurrent ContentIndex.current_empty
  · rw [hsame]
    exact hfinished k hdense

end State
end EditChain.Index
