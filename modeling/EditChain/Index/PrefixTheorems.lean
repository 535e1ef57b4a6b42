import EditChain.Core.IdsTheorems
import EditChain.Index.AtomicTheorems
import EditChain.Index.Prefix

/-!
# Prefixes of identities are resolved exactly

The bounds of a query hold the identities whose spelling starts with its text. Two members of a
sorted set, cut from each index before the merge, tell an empty set, a single member and ambiguity
apart. Hence a query resolves to what the retained identities and aliases say, and an identity is
abbreviated to its shortest prefix that resolves to it.
-/

namespace EditChain.Core.IdQuery

open Migration (AddressHash)
open Numeral

/-! ## Bounds -/

variable [AddressHash] {value text : Bytes} {digits : List ℕ} {query : IdQuery} {id : OpId}

/-- Hexadecimal digits filled up with one more digit. -/
lemma idFromDisplayStr_padded (h : Spells 16 text digits) (hlength : text.length ≤ 64) {pad : UInt8}
    {d : ℕ} (hpad : digit? 16 pad = some d) :
    idFromDisplayStr (text ++ List.replicate (64 - text.length) pad)
      = some (BitVec.ofNat 256
        (Numeral.value 16 (digits ++ List.replicate (64 - text.length) d))) := by
  apply idFromDisplayStr_of_spells
  · rw [List.length_append, List.length_replicate]
    omega
  · refine List.rel_append h ?_
    generalize 64 - text.length = k
    induction k with
    | zero => exact .nil
    | succ k ih => exact .cons hpad ih

omit [AddressHash] in
lemma value_zeros (k : ℕ) : Numeral.value 16 (List.replicate k 0) = 0 := by
  induction k with
  | zero => rfl
  | succ k ih => rw [List.replicate_succ', value_snoc, ih]

omit [AddressHash] in
lemma value_fifteens (k : ℕ) : Numeral.value 16 (List.replicate k 15) = 16 ^ k - 1 := by
  induction k with
  | zero => rfl
  | succ k ih =>
    have hpos : 0 < 16 ^ k := Nat.pow_pos (by decide)
    rw [List.replicate_succ', value_snoc, ih, pow_succ]
    omega

/-- A text that is accepted consists of hexadecimal digits in lower case, and the bounds are the
numbers that it starts. -/
structure Parsed (query : IdQuery) (digits : List ℕ) : Prop where
  length : 4 ≤ digits.length ∧ digits.length ≤ 64
  digit : ∀ d ∈ digits, d < 16
  text : query.text = digits.map digitByte
  lower : query.lower.toNat = Numeral.value 16 digits * 16 ^ (64 - digits.length)
  upper : query.upper.toNat
    = Numeral.value 16 digits * 16 ^ (64 - digits.length) + (16 ^ (64 - digits.length) - 1)

omit [AddressHash] in
/-- The number that digits filled up to 64 denote. -/
lemma toNat_padded (hlength : digits.length ≤ 64) (hdigit : ∀ d ∈ digits, d < 16) {d : ℕ}
    (hd : d < 16) : (BitVec.ofNat 256
        (Numeral.value 16 (digits ++ List.replicate (64 - digits.length) d))).toNat
      = Numeral.value 16 digits * 16 ^ (64 - digits.length)
        + Numeral.value 16 (List.replicate (64 - digits.length) d) := by
  have hlt : Numeral.value 16 (digits ++ List.replicate (64 - digits.length) d) < 2 ^ 256 := by
    have hall : ∀ e ∈ digits ++ List.replicate (64 - digits.length) d, e < 16 := by
      intro e he
      rcases List.mem_append.mp he with he | he
      · exact hdigit e he
      · rw [List.eq_of_mem_replicate he]
        exact hd
    have hvalue := value_lt hall
    rw [List.length_append, List.length_replicate, Nat.add_sub_cancel' hlength] at hvalue
    exact lt_of_lt_of_eq hvalue (by norm_num)
  rw [BitVec.toNat_ofNat, Nat.mod_eq_of_lt hlt, value_append, List.length_replicate]

/-- A text of four to 64 digits in lower case is read as the bounds of its prefix. -/
lemma parsed_of_bounds (hlength : 4 ≤ text.length ∧ text.length ≤ 64)
    (hspells : Spells 16 text digits)
    (hlower : toAsciiLowercase text = text)
    (hlow : idFromDisplayStr (text ++ List.replicate (64 - text.length) 48) = some query.lower)
    (hup : idFromDisplayStr (text ++ List.replicate (64 - text.length) 102) = some query.upper)
    (htext : query.text = text) : Parsed query digits := by
  have hcount : text.length = digits.length := hspells.length_eq
  rw [idFromDisplayStr_padded hspells hlength.2 (show digit? 16 48 = some 0 by decide),
    Option.some.injEq] at hlow
  rw [idFromDisplayStr_padded hspells hlength.2 (show digit? 16 102 = some 15 by decide),
    Option.some.injEq] at hup
  rw [hcount] at hlength hlow hup
  constructor
  · exact hlength
  · exact hspells.lt
  · rw [htext, map_digitByte_of_spells hspells, hlower]
  · rw [← hlow, toNat_padded hlength.2 hspells.lt (by decide), value_zeros, Nat.add_zero]
  · rw [← hup, toNat_padded hlength.2 hspells.lt (by decide), value_fifteens]

omit [AddressHash] in
lemma lower_lower (byte : UInt8) : Core.lower (Core.lower byte) = Core.lower byte := by
  apply UInt8.toNat_inj.mp
  rw [toNat_lower, toNat_lower]
  split_ifs <;> omega

omit [AddressHash] in
lemma toAsciiLowercase_twice (text : Bytes) :
    toAsciiLowercase (toAsciiLowercase text) = toAsciiLowercase text := by
  unfold toAsciiLowercase
  rw [List.map_map]
  exact List.map_congr_left fun byte _ => lower_lower byte

omit [AddressHash] in
lemma toAsciiLowercase_displayId (id : OpId) : toAsciiLowercase (displayId id) = displayId id := by
  rw [← map_digitByte_of_spells (spells_displayId id), ← displayId_eq]

/-- The text that a value stands for: the spelling of an address, or the value in lower case. -/
def spelling (value : Bytes) : Option Bytes :=
  if 58 ∈ value then (idFromDisplayStr value).map displayId else some (toAsciiLowercase value)

lemma parse_eq_some : parse value = some query ↔ spelling value = some query.text
    ∧ (4 ≤ query.text.length ∧ query.text.length ≤ 64) ∧ query.text.all isHexDigit = true
    ∧ idFromDisplayStr (query.text ++ List.replicate (64 - query.text.length) 48)
      = some query.lower
    ∧ idFromDisplayStr (query.text ++ List.replicate (64 - query.text.length) 102)
      = some query.upper := by
  constructor
  · intro h
    obtain ⟨text, htext, h⟩ := Option.bind_eq_some_iff.mp h
    by_cases hbad : ¬ (4 ≤ text.length ∧ text.length ≤ 64) ∨ ¬ text.all isHexDigit
    · rw [if_pos hbad] at h
      cases h
    rw [if_neg hbad] at h
    obtain ⟨lower, hlow, h⟩ := Option.bind_eq_some_iff.mp h
    obtain ⟨upper, hup, h⟩ := Option.bind_eq_some_iff.mp h
    cases h
    rw [not_or, not_not, not_not] at hbad
    exact ⟨htext, hbad.1, hbad.2, hlow, hup⟩
  · intro ⟨htext, hlength, hall, hlow, hup⟩
    refine Option.bind_eq_some_iff.mpr ⟨query.text, htext, ?_⟩
    rw [if_neg (not_or.mpr ⟨not_not_intro hlength, not_not_intro hall⟩)]
    exact Option.bind_eq_some_iff.mpr ⟨query.lower, hlow,
      Option.bind_eq_some_iff.mpr ⟨query.upper, hup, rfl⟩⟩

/-- The text of a query is in lower case. -/
lemma lowercase_of_spelling (h : spelling value = some text) : toAsciiLowercase text = text := by
  unfold spelling at h
  split at h
  · obtain ⟨id, -, rfl⟩ := Option.map_eq_some_iff.mp h
    exact toAsciiLowercase_displayId id
  · cases h
    exact toAsciiLowercase_twice value

lemma parsed_of_parse (h : parse value = some query) : ∃ digits, Parsed query digits := by
  obtain ⟨htext, hlength, hall, hlow, hup⟩ := parse_eq_some.mp h
  obtain ⟨digits, hspells⟩ := exists_spells_iff.mpr hall
  exact ⟨digits, parsed_of_bounds hlength hspells (lowercase_of_spelling htext) hlow hup rfl⟩

/-- The values without a colon that are accepted are those of four to 64 hexadecimal digits. -/
lemma parse_isSome_iff (hcolon : 58 ∉ value) : (∃ query, parse value = some query)
    ↔ (4 ≤ value.length ∧ value.length ≤ 64) ∧ value.all isHexDigit = true := by
  have hspelling : spelling value = some (toAsciiLowercase value) := if_neg hcolon
  have hlength : (toAsciiLowercase value).length = value.length := List.length_map _
  constructor
  · intro ⟨query, hquery⟩
    obtain ⟨htext, hbounds, hall, -⟩ := parse_eq_some.mp hquery
    rw [hspelling, Option.some.injEq] at htext
    rw [← htext] at hbounds hall
    rw [hlength] at hbounds
    obtain ⟨digits, hspells⟩ := exists_spells_iff.mpr hall
    have hvalue : Spells 16 value digits := by
      apply spells_of_lower _ hspells.lt
      rw [map_digitByte_of_spells hspells, toAsciiLowercase_twice]
    exact ⟨hbounds, all_isHexDigit_of_spells hvalue⟩
  · intro ⟨hbounds, hall⟩
    obtain ⟨digits, hspells⟩ := exists_spells_iff.mpr hall
    have hlower : Spells 16 (toAsciiLowercase value) digits := by
      rw [← map_digitByte_of_spells hspells]
      exact spells_map hspells.lt
    rw [← hlength] at hbounds
    exact ⟨⟨toAsciiLowercase value, _, _⟩, parse_eq_some.mpr ⟨hspelling, hbounds,
      all_isHexDigit_of_spells hlower,
      idFromDisplayStr_padded hlower hbounds.2 (show digit? 16 48 = some 0 by decide),
      idFromDisplayStr_padded hlower hbounds.2 (show digit? 16 102 = some 15 by decide)⟩⟩

omit [AddressHash] in
/-- Digits are the first ones of an identity when it lies between the numbers they start. -/
lemma Parsed.mem_bounds_iff (h : Parsed query digits) :
    (query.bounds.1 ≤ id ∧ id ≤ query.bounds.2) ↔ query.text <+: displayId id := by
  have hpos : 0 < 16 ^ (64 - digits.length) := Nat.pow_pos (by decide)
  have hdiv : (query.lower ≤ id ∧ id ≤ query.upper)
      ↔ id.toNat / 16 ^ (64 - digits.length) = Numeral.value 16 digits := by
    rw [BitVec.le_def, BitVec.le_def, h.lower, h.upper, Nat.div_eq_iff hpos]
    omega
  have hsize : id.toNat / 16 ^ (64 - digits.length) < 16 ^ digits.length := by
    rw [Nat.div_lt_iff_lt_mul hpos, ← pow_add, Nat.add_sub_cancel' h.length.2]
    exact lt_of_lt_of_eq id.isLt (by norm_num)
  have hfirst : (displayId id).take digits.length
      = (fixed 16 digits.length (id.toNat / 16 ^ (64 - digits.length))).map digitByte := by
    rw [displayId_eq, ← List.map_take, take_fixed h.length.2]
  show (query.lower ≤ id ∧ id ≤ query.upper) ↔ _
  rw [hdiv, List.prefix_iff_eq_take, h.text, List.length_map, hfirst]
  constructor
  · intro hvalue
    rw [hvalue, fixed_value (by decide) h.digit]
  · intro hmap
    have hspells : Spells 16 (digits.map digitByte)
        (fixed 16 digits.length (id.toNat / 16 ^ (64 - digits.length))) := by
      rw [hmap]
      exact spells_map fun d hd => lt_of_mem_fixed (by decide) hd
    have heq := congrArg (Numeral.value 16) (spells_unique (spells_map h.digit) hspells)
    rw [value_fixed, Nat.mod_eq_of_lt hsize] at heq
    exact heq.symm

/-- An identity lies within the bounds of a query exactly if its spelling starts with the text. -/
lemma mem_bounds_iff (h : parse value = some query) :
    (query.bounds.1 ≤ id ∧ id ≤ query.bounds.2) ↔ query.text <+: displayId id := by
  obtain ⟨digits, hparsed⟩ := parsed_of_parse h
  exact hparsed.mem_bounds_iff

/-- The first digits of an identity are a query. -/
lemma parse_take (id : OpId) {n : ℕ} (h : 4 ≤ n ∧ n ≤ 64) :
    ∃ query, parse ((displayId id).take n) = some query
      ∧ query.text = (displayId id).take n := by
  have hspells : Spells 16 ((displayId id).take n) ((fixed 16 64 id.toNat).take n) :=
    List.forall₂_take n (spells_displayId id)
  have hcolon : 58 ∉ (displayId id).take n := not_mem_of_spells hspells (by decide)
  have hlength : ((displayId id).take n).length = n := by
    rw [List.length_take, length_displayId]
    omega
  obtain ⟨query, hquery⟩ := (parse_isSome_iff hcolon).mpr
    ⟨by rw [hlength]; exact h, all_isHexDigit_of_spells hspells⟩
  have htext := (parse_eq_some.mp hquery).1
  have hlower : toAsciiLowercase ((displayId id).take n) = (displayId id).take n := by
    unfold toAsciiLowercase
    rw [List.map_take]
    exact congrArg (List.take n) (toAsciiLowercase_displayId id)
  rw [show spelling ((displayId id).take n) = _ from if_neg hcolon, hlower,
    Option.some.injEq] at htext
  exact ⟨query, hquery, htext.symm⟩

end EditChain.Core.IdQuery

namespace EditChain.Index

open Core Fallible Store
open Migration (AddressHash)
open Std (ExtTreeMap ExtTreeSet TransOrd LawfulEqOrd)

/-! ## Two of a sorted sequence -/

/-- What two places show of a set: nothing, its only member, or two of its members. -/
inductive Cut (members : Set OpId) : List OpId → Prop
  | none : members = ∅ → Cut members []
  | one {id : OpId} : members = {id} → Cut members [id]
  | two {first second : OpId} : first ∈ members → second ∈ members → first < second →
      Cut members [first, second]

lemma cut_take {ids : List OpId} (h : ids.Pairwise (· < ·)) : Cut {id | id ∈ ids} (ids.take 2) := by
  match ids with
  | [] => exact .none (Set.eq_empty_of_forall_notMem fun id hid => by cases hid)
  | [id] => exact .one (Set.ext fun other => List.mem_singleton)
  | first :: second :: rest =>
    exact .two (by simp) (by simp) ((List.pairwise_cons.mp h).1 second (by simp))

/-- A set that shows the same as a part of it. -/
lemma Cut.mono {part members : Set OpId} {ids : List OpId} (h : Cut part ids)
    (hsub : part ⊆ members) (hnone : part = ∅ → members = ∅)
    (hone : ∀ id, part = {id} → members = {id}) : Cut members ids := by
  cases h with
  | none hempty => exact .none (hnone hempty)
  | one hsingle => exact .one (hone _ hsingle)
  | two hfirst hsecond hlt => exact .two (hsub hfirst) (hsub hsecond) hlt

/-- What is shown belongs to the set. -/
lemma Cut.subset {members : Set OpId} {ids : List OpId} (h : Cut members ids) :
    ∀ id ∈ ids, id ∈ members := by
  cases h with
  | none _ => simp
  | one hsingle => simp [hsingle]
  | two hfirst hsecond _ => simp [hfirst, hsecond]

/-- A set that shows at most one member is what it shows. -/
lemma Cut.eq_shown {members : Set OpId} {ids : List OpId} {id : OpId} (h : Cut members ids)
    (hone : ∀ other ∈ ids, other = id) : members = {other | other ∈ ids} := by
  cases h with
  | none hempty => simpa using hempty
  | @one only hsingle =>
    rw [hsingle]
    ext other
    simp
  | @two first second hfirst hsecond hlt =>
    have hsame : first = second := (hone first (by simp)).trans (hone second (by simp)).symm
    rw [hsame] at hlt
    exact absurd hlt (BitVec.lt_irrefl second)

/-- Nothing is shown of an empty set. -/
lemma Cut.eq_nil {members : Set OpId} {ids : List OpId} (h : Cut members ids)
    (hempty : members = ∅) : ids = [] := by
  subst hempty
  cases h with
  | none _ => rfl
  | one hsingle => exact absurd hsingle.symm (Set.singleton_ne_empty _)
  | two hfirst _ _ => cases hfirst

/-- An only member is shown. -/
lemma Cut.eq_singleton {members : Set OpId} {ids : List OpId} {id : OpId} (h : Cut members ids)
    (hsingle : members = {id}) : ids = [id] := by
  subst hsingle
  cases h with
  | none hempty => exact absurd hempty (Set.singleton_ne_empty id)
  | one honly => rw [Set.singleton_eq_singleton_iff.mp honly]
  | two hfirst hsecond hlt =>
    rw [Set.mem_singleton_iff.mp hfirst, Set.mem_singleton_iff.mp hsecond] at hlt
    exact absurd hlt (BitVec.lt_irrefl id)

/-- Two members are shown if there are two. -/
lemma Cut.eq_pair {members : Set OpId} {ids : List OpId} (h : Cut members ids)
    (hmany : members.Nontrivial) :
    ∃ first ∈ members, ∃ second ∈ members, first ≠ second ∧ ids = [first, second] := by
  cases h with
  | none hempty => exact absurd hempty hmany.nonempty.ne_empty
  | one hsingle => exact absurd (hsingle ▸ hmany) Set.not_nontrivial_singleton
  | @two first second hfirst hsecond hlt =>
    exact ⟨first, hfirst, second, hsecond, BitVec.ne_of_lt hlt, rfl⟩

lemma mem_extend {set : ExtTreeSet OpId} {ids : List OpId} {id : OpId} :
    id ∈ extend set ids ↔ id ∈ set ∨ id ∈ ids := by
  unfold extend
  rw [ChainDelta.mem_foldl_insert]
  exact or_comm

lemma lt_of_compare {first second : OpId} (h : compare first second = .lt) : first < second :=
  compareOfLessAndEq_eq_lt.mp h

lemma sorted_toList (set : ExtTreeSet OpId) : set.toList.Pairwise (· < ·) :=
  ExtTreeSet.ordered_toList.imp lt_of_compare

/-- Two sets may be cut before they are merged. -/
lemma Cut.merge {members others : Set OpId} {ids more : List OpId} (h : Cut members ids)
    (h' : Cut others more) :
    Cut (members ∪ others) ((extend (extend ∅ ids) more).toList.take 2) := by
  have hmem : ∀ id, id ∈ (extend (extend ∅ ids) more).toList ↔ id ∈ ids ∨ id ∈ more := by
    intro id
    rw [ExtTreeSet.mem_toList, mem_extend, mem_extend]
    simp
  -- at most one is shown in all, so each of the two is what it shows
  have hshown : ∀ id, (∀ other, other ∈ ids ∨ other ∈ more → other = id) →
      members ∪ others = {other | other ∈ (extend (extend ∅ ids) more).toList} := by
    intro id hone
    rw [h.eq_shown fun other hother => hone other (.inl hother),
      h'.eq_shown fun other hother => hone other (.inr hother)]
    ext other
    exact (hmem other).symm
  apply (cut_take (sorted_toList _)).mono
  · intro id hid
    rcases (hmem id).mp hid with hid | hid
    · exact .inl (h.subset id hid)
    · exact .inr (h'.subset id hid)
  · intro hempty
    rw [hshown 0, hempty]
    intro other hother
    have : other ∈ (∅ : Set OpId) := hempty ▸ (hmem other).mpr hother
    cases this
  · intro id hsingle
    rw [hshown id, hsingle]
    intro other hother
    have : other ∈ ({id} : Set OpId) := hsingle ▸ (hmem other).mpr hother
    exact this

lemma cut_within {ids : List OpId} (h : ids.Pairwise (· < ·)) (bounds : OpId × OpId) :
    Cut {id | id ∈ ids ∧ bounds.1 ≤ id ∧ id ≤ bounds.2} ((within bounds ids).take 2) := by
  have hmembers : {id | id ∈ ids ∧ bounds.1 ≤ id ∧ id ≤ bounds.2}
      = {id | id ∈ within bounds ids} := by
    ext id
    simp [within]
  rw [hmembers]
  exact cut_take (h.filter _)

variable {Op Ref Key : Type} [Ord Ref]

namespace ChainIndex

/-- The identities and aliases of the index within bounds. -/
def matching (index : ChainIndex Op Ref Key) (bounds : OpId × OpId) : Set OpId :=
  {id | (id ∈ index.state.identities ∨ id ∈ index.state.aliases)
    ∧ bounds.1 ≤ id ∧ id ≤ bounds.2}

/-- The candidates are what two places show of all that match. -/
lemma cut_idCandidates (index : ChainIndex Op Ref Key) (query : IdQuery) :
    Cut (index.matching query.bounds) (index.idCandidates query) := by
  have hidentities := cut_within (sorted_toList index.state.identities) query.bounds
  have haliases : Cut _ ((within query.bounds index.state.aliases.keys).take 2) :=
    cut_within (ExtTreeMap.ordered_keys.imp lt_of_compare) query.bounds
  have hmatching : index.matching query.bounds
      = {id | id ∈ index.state.identities.toList ∧ query.bounds.1 ≤ id ∧ id ≤ query.bounds.2}
        ∪ {id | id ∈ index.state.aliases.keys ∧ query.bounds.1 ≤ id ∧ id ≤ query.bounds.2} := by
    ext id
    simp only [matching, Set.mem_ofPred_eq, Set.mem_union, ExtTreeSet.mem_toList,
      ExtTreeMap.mem_keys]
    exact or_and_right
  rw [hmatching]
  exact hidentities.merge haliases

lemma cut_aliasCandidates (index : ChainIndex Op Ref Key) (id : OpId) :
    Cut {target | target ∈ index.state.aliases.getD id ∅} (index.aliasCandidates id) := by
  unfold aliasCandidates
  rw [ExtTreeMap.getD_eq_getD_getElem?]
  cases index.state.aliases[id]? with
  | none => exact .none (by simp)
  | some ids =>
    have hmembers : {target | target ∈ ids} = {target | target ∈ ids.toList} := by
      ext target
      exact ExtTreeSet.mem_toList.symm
    show Cut {target | target ∈ ids} (ids.toList.take 2)
    rw [hmembers]
    exact cut_take (sorted_toList ids)

end ChainIndex

/-! ## Resolution -/

/-- The identity that a prefix stands for is the answer if it is retained; otherwise its only
target is, and several targets are ambiguous. -/
structure Followed (retained : Set OpId) (targets : OpId → Set OpId) (id : OpId)
    (answer : IdResolution) : Prop where
  own : id ∈ retained → answer = .found id
  target : id ∉ retained → ∀ target, targets id = {target} → answer = .found target
  several : id ∉ retained → (targets id).Nontrivial →
    ∃ first ∈ targets id, ∃ second ∈ targets id, first ≠ second ∧ answer = .ambiguous [first, second]

/-- The identities with a prefix, among those that are retained or have targets. -/
def known (retained : Set OpId) (targets : OpId → Set OpId) (text : Bytes) : Set OpId :=
  {id | (id ∈ retained ∨ (targets id).Nonempty) ∧ text <+: displayId id}

/-- An answer says how many known identities have the prefix. -/
structure Resolved (retained : Set OpId) (targets : OpId → Set OpId) (text : Bytes)
    (answer : IdResolution) : Prop where
  missing : known retained targets text = ∅ → answer = .missing
  ambiguous : (known retained targets text).Nontrivial →
    ∃ first ∈ known retained targets text, ∃ second ∈ known retained targets text,
      first ≠ second ∧ answer = .ambiguous [first, second]
  found : ∀ id, known retained targets text = {id} → Followed retained targets id answer

/-- The targets of an alias are the operations whose variants name it. -/
def targets [Schema Op] [Checksum] [IndexSchema Op Ref Key] (d : Directory)
    (chain : IndexedChain Op) (old : OpId) : Set OpId :=
  {id | ∃ op ∈ State.variants d chain, old ∈ IndexSchema.aliases op ∧ Schema.id op = id}

namespace ChainQueries

variable [AddressHash] {retained : Set OpId} {goals : OpId → Set OpId}
  {queries : ChainQueries Op Ref Key} {id : OpId} {query : IdQuery} {value : Bytes}

omit [AddressHash] in
/-- An identity that was found is followed. -/
lemma resolveAlias_followed (hretained : ∀ id, id ∈ queries.index.state.identities ↔ id ∈ retained)
    (hgoals : ∀ old, {id | id ∈ queries.index.state.aliases.getD old ∅} = goals old) (id : OpId) :
    Followed retained goals id (queries.resolveAlias id) := by
  have hcut := queries.index.cut_aliasCandidates id
  rw [hgoals] at hcut
  have hretains : queries.index.retainsId id = true ↔ id ∈ retained := by
    rw [← hretained]
    exact ExtTreeSet.contains_iff_mem
  unfold resolveAlias
  constructor
  · intro hid
    rw [if_pos (hretains.mpr hid)]
  · intro hid target htarget
    rw [if_neg fun h => hid (hretains.mp h), hcut.eq_singleton htarget]
  · intro hid hmany
    obtain ⟨first, hfirst, second, hsecond, hne, heq⟩ := hcut.eq_pair hmany
    rw [if_neg fun h => hid (hretains.mp h), heq]
    exact ⟨first, hfirst, second, hsecond, hne, rfl⟩

/-- What matches a query are the known identities with its text. -/
lemma matching_eq_known (hretained : ∀ id, id ∈ queries.index.state.identities ↔ id ∈ retained)
    (haliases : ∀ old, old ∈ queries.index.state.aliases ↔ (goals old).Nonempty)
    (hquery : IdQuery.parse value = some query) :
    queries.index.matching query.bounds = known retained goals query.text := by
  ext id
  show (id ∈ queries.index.state.identities ∨ id ∈ queries.index.state.aliases) ∧ _ ↔ _
  rw [hretained, haliases, IdQuery.mem_bounds_iff hquery]
  rfl

/-- A proper prefix resolves to what is known. -/
lemma resolveId_resolved (queries : ChainQueries Op Ref Key)
    (hretained : ∀ id, id ∈ queries.index.state.identities ↔ id ∈ retained)
    (hgoals : ∀ old, {id | id ∈ queries.index.state.aliases.getD old ∅} = goals old)
    (haliases : ∀ old, old ∈ queries.index.state.aliases ↔ (goals old).Nonempty)
    (hquery : IdQuery.parse value = some query) (hproper : query.full = none) :
    Resolved retained goals query.text (queries.resolveId query) := by
  have hcut := queries.index.cut_idCandidates query
  rw [matching_eq_known hretained haliases hquery] at hcut
  unfold resolveId
  rw [hproper]
  constructor
  · intro hempty
    rw [hcut.eq_nil hempty]
  · intro hmany
    obtain ⟨first, hfirst, second, hsecond, hne, heq⟩ := hcut.eq_pair hmany
    rw [heq]
    exact ⟨first, hfirst, second, hsecond, hne, rfl⟩
  · intro id hsingle
    rw [hcut.eq_singleton hsingle]
    exact resolveAlias_followed hretained hgoals id

/-! ## Abbreviations -/

/-- The first digits of an identity resolve to it alone. -/
def ResolvesAlone (queries : ChainQueries Op Ref Key) (id : OpId) (n : ℕ) : Prop :=
  ∃ query, IdQuery.parse ((displayId id).take n) = some query ∧ queries.resolveId query = .found id

omit [AddressHash] in
lemma full_take {n : ℕ} (hquery : query.text = (displayId id).take n) (h : n < 64) :
    query.full = none := by
  apply if_neg
  rw [hquery, List.length_take, length_displayId]
  omega

/-- A proper prefix of a retained identity resolves to it when there is no other candidate. -/
lemma resolvesAlone_iff (hretained : id ∈ queries.index.state.identities) {n : ℕ}
    (hquery : IdQuery.parse ((displayId id).take n) = some query)
    (htext : query.text = (displayId id).take n) (hn : n < 64) :
    queries.ResolvesAlone id n ↔ queries.index.idCandidates query = [id] := by
  have hcut := queries.index.cut_idCandidates query
  have hself : id ∈ queries.index.matching query.bounds := by
    refine ⟨.inl hretained, (IdQuery.mem_bounds_iff hquery).mpr ?_⟩
    rw [htext]
    exact ⟨_, List.take_append_drop n _⟩
  constructor
  · intro ⟨other, hother, hfound⟩
    rw [hquery, Option.some.injEq] at hother
    subst hother
    unfold resolveId at hfound
    rw [full_take htext hn] at hfound
    dsimp only at hfound
    generalize queries.index.idCandidates query = candidates at hcut hfound
    cases hcut with
    | none hempty => cases hfound
    | one hsingle =>
      rw [hsingle] at hself
      rw [Set.mem_singleton_iff.mp hself]
    | two _ _ _ => cases hfound
  · intro hcandidates
    refine ⟨query, hquery, ?_⟩
    unfold resolveId
    rw [full_take htext hn, hcandidates]
    exact if_pos (ExtTreeSet.contains_iff_mem.mpr hretained)

/-- The full spelling of a retained identity resolves to it. -/
lemma resolvesAlone_full (hretained : id ∈ queries.index.state.identities) :
    queries.ResolvesAlone id 64 := by
  have htake : (displayId id).take 64 = displayId id :=
    List.take_of_length_le (length_displayId id).le
  obtain ⟨query, hquery, htext⟩ := IdQuery.parse_take id (show 4 ≤ 64 ∧ 64 ≤ 64 by omega)
  refine ⟨query, hquery, ?_⟩
  have hlower := (IdQuery.parse_eq_some.mp hquery).2.2.2.1
  rw [htext, htake, length_displayId, Nat.sub_self, List.replicate_zero, List.append_nil,
    idFromDisplayStr_displayId, Option.some.injEq] at hlower
  have hfull : query.full = some id := by
    unfold IdQuery.full
    rw [htext, htake, length_displayId, if_pos rfl, hlower]
  unfold resolveId
  rw [hfull]
  exact if_pos (ExtTreeSet.contains_iff_mem.mpr hretained)

/-- The loop stops at the first prefix that resolves to the identity, or goes on to the end. -/
lemma shortIdLoop_spec (queries : ChainQueries Op Ref Key)
    (hretained : id ∈ queries.index.state.identities) (count : ℕ) :
    ∀ start, 4 ≤ start → start + count = 64 →
      ∃ n, start ≤ n ∧ n ≤ 64
        ∧ queries.index.shortIdLoop id (displayId id) (List.range' start count)
          = (displayId id).take n
        ∧ queries.ResolvesAlone id n ∧ ∀ m, start ≤ m → m < n → ¬ queries.ResolvesAlone id m := by
  induction count with
  | zero =>
    intro start _ hend
    refine ⟨64, by omega, le_rfl, ?_, resolvesAlone_full hretained, fun m _ _ => by omega⟩
    exact (List.take_of_length_le (length_displayId id).le).symm
  | succ count ih =>
    intro start hstart hend
    obtain ⟨query, hquery, htext⟩ := IdQuery.parse_take id (show 4 ≤ start ∧ start ≤ 64 by omega)
    have halone := resolvesAlone_iff hretained hquery htext (by omega)
    rw [List.range'_succ, ChainIndex.shortIdLoop, if_neg (by rw [length_displayId]; omega), hquery]
    dsimp only
    by_cases hcandidates : queries.index.idCandidates query = [id]
    · rw [if_pos hcandidates]
      exact ⟨start, le_rfl, by omega, rfl, halone.mpr hcandidates, fun m _ _ => by omega⟩
    · obtain ⟨n, hlow, hhigh, heq, hfound, hnone⟩ := ih (start + 1) (by omega) (by omega)
      rw [if_neg hcandidates]
      refine ⟨n, by omega, hhigh, heq, hfound, fun m hm hlt => ?_⟩
      by_cases hsame : m = start
      · rw [hsame, halone]
        exact hcandidates
      · exact hnone m (by omega) hlt

end ChainQueries

namespace Setting

variable [Schema Op] [Checksum] [IndexSchema Op Ref Key] [DecidableEq Key] [TransOrd Ref]
  [LawfulEqOrd Ref] [DecidableEq Ref] [AddressHash] {root : String} {w : Setting Op Ref Key}
  {index : ChainIndex Op Ref Key}

/-- Whatever happened before, the bounds of a query hold the identities whose spelling starts with
its text; a proper prefix resolves to what the chain has with it, quarantined identities and aliases
included; and a retained identity is abbreviated to its shortest prefix of twelve digits or more
that resolves to it, which may be all of it. -/
theorem prefixes_resolve_exactly {d : Directory} {truth : Ref → ContentState}
    (hrun : Run root { directory := d, truth := truth } w) (hindex : w.handle = some index) :
    let retained : Set OpId := {id | index.state.tail.chain.entries[id]?.isSome}
    (∀ value : Bytes, 58 ∉ value →
        ((∃ query, IdQuery.parse value = some query)
            ↔ (4 ≤ value.length ∧ value.length ≤ 64) ∧ value.all IdQuery.isHexDigit = true)
          ∧ ∀ query, IdQuery.parse value = some query → query.text = toAsciiLowercase value)
      ∧ (∀ value query id, IdQuery.parse value = some query →
        ((query.bounds.1 ≤ id ∧ id ≤ query.bounds.2) ↔ query.text <+: displayId id))
      ∧ (∀ value query, IdQuery.parse value = some query → query.full = none →
        Resolved retained (targets w.directory index.state.tail.chain) query.text
          (ChainQueries.resolveId ⟨index⟩ query))
      ∧ ∀ id ∈ retained, ∃ n, 12 ≤ n ∧ n ≤ 64 ∧ index.shortId id = (displayId id).take n
        ∧ ChainQueries.ResolvesAlone ⟨index⟩ id n
        ∧ ∀ m, 12 ≤ m → m < n → ¬ ChainQueries.ResolvesAlone ⟨index⟩ id m := by
  have hmirrors := Run.mirrors hrun hindex
  have hgoals : ∀ old, {id | id ∈ index.state.aliases.getD old ∅}
      = targets w.directory index.state.tail.chain old := by
    intro old
    ext id
    exact hmirrors.remembers.aliases old id
  have haliases : ∀ old, old ∈ index.state.aliases
      ↔ (targets w.directory index.state.tail.chain old).Nonempty := by
    intro old
    rw [hmirrors.remembers.mem_aliases]
    constructor
    · intro ⟨op, hop, hold⟩
      exact ⟨Schema.id op, op, hop, hold, rfl⟩
    · intro ⟨id, op, hop, hold, _⟩
      exact ⟨op, hop, hold⟩
  refine ⟨fun value hcolon => ⟨IdQuery.parse_isSome_iff hcolon, fun query hquery => ?_⟩,
    fun value query id hquery => IdQuery.mem_bounds_iff hquery,
    fun value query hquery hproper => ?_, fun id hid => ?_⟩
  · have htext := (IdQuery.parse_eq_some.mp hquery).1
    rw [IdQuery.spelling, if_neg hcolon, Option.some.injEq] at htext
    exact htext.symm
  · exact ChainQueries.resolveId_resolved ⟨index⟩ hmirrors.identities hgoals haliases
      hquery hproper
  · exact ChainQueries.shortIdLoop_spec ⟨index⟩ ((hmirrors.identities id).mpr hid) 52 12
      (by omega) (by omega)

end Setting
end EditChain.Index

namespace EditChain.Index.Setting

open Core Fallible Store
open Migration (AddressHash messageAddresses)

section Witness

local instance prefixSchema : Schema OpId := messageSchema
local instance prefixChecksum : Checksum := crc32cChecksum
local instance prefixAddresses : AddressHash := messageAddresses

/-- Messages without content. -/
local instance prefixIndex : IndexSchema OpId ℕ ℕ where
  references _ := []
  keys _ _ := []
  items _ := []
  aliases op := [op + 1]

/-- The index of a chain with one message. -/
def openedMessage : Except IoError (ChainIndex OpId ℕ ℕ) × Option (State OpId ℕ ℕ) :=
  (ChainIndex.openIndex answering "/chain" (generationName 1 2 3)
    (messageAround (oneSegment messageFrame 2)) (messageAround (oneSegment messageFrame 2))).exec
      none

/-- In an index with one message, the message is abbreviated to a prefix of its spelling. -/
theorem prefixes_resolve_exactly_message :
    ∃ (w : Setting OpId ℕ ℕ) (index : ChainIndex OpId ℕ ℕ) (n : ℕ),
      Run "/chain" { directory := oneSegment messageFrame 2, truth := fun _ => .missing } w
        ∧ w.handle = some index ∧ 12 ≤ n ∧ n ≤ 64
        ∧ index.shortId messageId = (displayId messageId).take n
        ∧ ChainQueries.ResolvesAlone ⟨index⟩ messageId n := by
  have hopened : (openedMessage.1.toOption.any fun index =>
      index.state.tail.chain.entries[messageId]?.isSome) = true := by
    decide +kernel
  obtain ⟨w, index, hrun, hindex, -, hmessage⟩ :=
    Run.opened (.of_eq fun _ => rfl) 1 2 3 rfl hopened
  obtain ⟨-, -, -, hshort⟩ := prefixes_resolve_exactly hrun hindex
  obtain ⟨n, hlow, hhigh, heq, hfound, -⟩ := hshort messageId hmessage
  exact ⟨w, index, n, hrun, hindex, hlow, hhigh, heq, hfound⟩

end Witness
end EditChain.Index.Setting
