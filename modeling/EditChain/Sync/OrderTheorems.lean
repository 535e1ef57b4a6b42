import Mathlib.Data.List.Pairwise
import Mathlib.Logic.Relation
import EditChain.Sync.InventoryTheorems
import EditChain.Sync.StorageTheorems

/-!
# Parents are exported before their descendants

The walk over the records is a depth-first search with its own stack. An entry for a second visit
stands for an open call: what is above it is reached from it, so that a parent which is still open
when a key is finished descends from that key. Every other parent is finished already.
-/

namespace EditChain.Sync

open Core Fallible Relation
open Std (ExtTreeMap)

variable {Op : Type} [Schema Op]

/-- The child names the identity of the parent, and both are retained. The child has an edge to
every variant of that identity. -/
def Names (records : ExtTreeMap RecordKey Bytes) (child parent : RecordKey) : Prop :=
  ∃ bytes op, records[child]? = some bytes ∧ Schema.decodeOp bytes = .ok op
    ∧ parent.id ∈ Schema.parentIds op ∧ parent ∈ records

/-- Descent over all variants present. -/
def Descends (records : ExtTreeMap RecordKey Bytes) : RecordKey → RecordKey → Prop :=
  TransGen (Names records)

/-! ## The loops without a bound -/

/-- The `while let` loop runs from one walk to another, which leaves nothing on the stack. -/
inductive Walk.Drains (records : ExtTreeMap RecordKey Bytes) (keys : List RecordKey) :
    Walk → Walk → Prop where
  | done {walk : Walk} (empty : walk.pending = []) : Drains records keys walk walk
  | next {walk visited last : Walk} {index : ℕ} {finish : Bool} {rest : List (ℕ × Bool)}
      (popped : walk.pending = (index, finish) :: rest)
      (visit : Walk.visit records keys index finish { walk with pending := rest } = .ok visited)
      (drains : Drains records keys visited last) : Drains records keys walk last

/-- The `for` loop over the starts. -/
inductive Walk.Covers (records : ExtTreeMap RecordKey Bytes) (keys : List RecordKey) :
    List ℕ → Walk → Walk → Prop where
  | nil (walk : Walk) : Covers records keys [] walk walk
  | cons {start : ℕ} {starts : List ℕ} {walk drained last : Walk}
      (drains : Walk.Drains records keys
        { walk with pending := (start, false) :: walk.pending } drained)
      (covers : Covers records keys starts drained last) :
      Covers records keys (start :: starts) walk last

/-! ## The variants of an identity -/

/-- The partition point of sorted keys. -/
lemma lt_partitionPoint {keys : List RecordKey} {p : RecordKey → Bool}
    (hsorted : keys.Pairwise fun a b => p b = true → p a = true) {i : ℕ} :
    i < partitionPoint keys p ↔ ∃ key, keys[i]? = some key ∧ p key = true := by
  unfold partitionPoint
  induction keys generalizing i with
  | nil => simp
  | cons key keys ih =>
    obtain ⟨hfirst, hrest⟩ := List.pairwise_cons.mp hsorted
    rw [List.takeWhile_cons]
    by_cases hkey : p key = true
    · rw [if_pos hkey]
      cases i with
      | zero => simp [hkey]
      | succ i =>
        rw [List.length_cons, Nat.succ_lt_succ_iff, ih hrest, List.getElem?_cons_succ]
    · rw [if_neg hkey]
      constructor
      · intro h
        simp at h
      · rintro ⟨other, hother, hp⟩
        cases i with
        | zero =>
          rw [List.getElem?_cons_zero, Option.some.injEq] at hother
          exact absurd (hother ▸ hp) hkey
        | succ i =>
          rw [List.getElem?_cons_succ] at hother
          exact absurd (hfirst other (List.mem_of_getElem? hother) hp) hkey

/-- Keys in their order. -/
def Ascending (keys : List RecordKey) : Prop := keys.Pairwise fun a b => compare a b = .lt

lemma id_le_of_compare {a b : RecordKey} (h : compare a b = .lt) : a.id.toNat ≤ b.id.toNat := by
  by_contra hlt
  have hgt : compare a.id b.id = .gt := by
    show compareOfLessAndEq a.id b.id = .gt
    have hne : a.id ≠ b.id := fun heq => hlt (by rw [heq])
    have hnot : ¬ a.id < b.id := by
      rw [BitVec.lt_def]
      omega
    unfold compareOfLessAndEq
    rw [if_neg hnot, if_neg hne]
  have hlex : (compare a.id b.id).then (compare a.digest b.digest) = .lt := h
  rw [hgt] at hlex
  cases hlex

lemma mem_variantIndices {keys : List RecordKey} (hkeys : Ascending keys) {parent : OpId} {i : ℕ} :
    i ∈ variantIndices keys parent ↔ ∃ key, keys[i]? = some key ∧ key.id = parent := by
  have hbelow : keys.Pairwise fun a b =>
      decide (b.id < parent) = true → decide (a.id < parent) = true := by
    refine hkeys.imp fun {a b} hab h => ?_
    have hle := id_le_of_compare hab
    rw [decide_eq_true_eq, BitVec.lt_def] at h ⊢
    omega
  have hupTo : keys.Pairwise fun a b =>
      decide (b.id ≤ parent) = true → decide (a.id ≤ parent) = true := by
    refine hkeys.imp fun {a b} hab h => ?_
    have hle := id_le_of_compare hab
    rw [decide_eq_true_eq, BitVec.le_def] at h ⊢
    omega
  have hfirst := lt_partitionPoint hbelow (i := i)
  have hlast := lt_partitionPoint hupTo (i := i)
  have hrange : i ∈ variantIndices keys parent
      ↔ ¬ i < partitionPoint keys (fun key => decide (key.id < parent))
        ∧ i < partitionPoint keys (fun key => decide (key.id ≤ parent)) := by
    unfold variantIndices
    rw [List.mem_range'_1]
    omega
  rw [hrange, hfirst, hlast]
  constructor
  · rintro ⟨hnot, key, hkey, hle⟩
    refine ⟨key, hkey, ?_⟩
    rw [decide_eq_true_eq, BitVec.le_def] at hle
    apply BitVec.eq_of_toNat_eq
    by_contra hne
    exact hnot ⟨key, hkey, by rw [decide_eq_true_eq, BitVec.lt_def]; omega⟩
  · rintro ⟨key, hkey, rfl⟩
    refine ⟨?_, key, hkey, by rw [decide_eq_true_eq, BitVec.le_def]⟩
    rintro ⟨other, hother, hlt⟩
    rw [hkey, Option.some.injEq] at hother
    rw [decide_eq_true_eq, BitVec.lt_def, hother] at hlt
    exact absurd hlt (Nat.lt_irrefl _)

/-- What is pushed for a key: first visits of the parents it names. -/
lemma mem_pushParents {keys : List RecordKey} (hkeys : Ascending keys) {parents : List OpId}
    {i : ℕ} :
    (i, false) ∈ pushParents keys parents []
      ↔ ∃ key, keys[i]? = some key ∧ key.id ∈ parents := by
  induction parents with
  | nil => simp [pushParents]
  | cons parent parents ih =>
    have hcons : pushParents keys (parent :: parents) []
        = pushParents keys parents ((variantIndices keys parent).map (·, false) ++ []) := rfl
    rw [hcons, pushParents_eq_append, List.append_nil, List.mem_append, ih]
    have hvariants : (i, false) ∈ (variantIndices keys parent).map (·, false)
        ↔ i ∈ variantIndices keys parent := by simp
    rw [hvariants, mem_variantIndices hkeys]
    constructor
    · rintro (⟨key, hkey, hmem⟩ | ⟨key, hkey, rfl⟩)
      · exact ⟨key, hkey, List.mem_cons_of_mem _ hmem⟩
      · exact ⟨key, hkey, List.mem_cons_self⟩
    · rintro ⟨key, hkey, hmem⟩
      rcases List.mem_cons.mp hmem with rfl | hmem
      · exact .inr ⟨key, hkey, rfl⟩
      · exact .inl ⟨key, hkey, hmem⟩

lemma names_iff_pushed {records : ExtTreeMap RecordKey Bytes} {child parent : RecordKey} {i : ℕ}
    (hparent : records.keys[i]? = some parent) :
    Names records child parent ↔ (i, false) ∈ pushes records records.keys child := by
  have hmem : parent ∈ records :=
    ExtTreeMap.mem_keys.mp (List.mem_of_getElem? hparent)
  unfold pushes Names
  cases hbytes : records[child]? with
  | none => simp
  | some bytes =>
    cases hop : Schema.decodeOp bytes with
    | error error =>
      simp [hop]
    | ok op =>
      have hsorted : Ascending records.keys := ExtTreeMap.ordered_keys
      have hpushed : (i, false) ∈ pushParents records.keys (Schema.parentIds op) []
          ↔ ∃ key, records.keys[i]? = some key ∧ key.id ∈ Schema.parentIds op :=
        mem_pushParents hsorted
      simp [hop, hmem, hpushed, hparent]

/-! ## The order of the walk -/

namespace Walk

variable {records : ExtTreeMap RecordKey Bytes} {keys : List RecordKey}

/-- What one entry of the stack does. -/
lemma visit_cases {walk next : Walk} {i : ℕ} {finish : Bool}
    (h : visit records keys i finish walk = .ok next) :
    ∃ key, keys[i]? = some key
      ∧ ((finish = true ∧ next = { walk with
            state := walk.state.set i .finished, ordered := walk.ordered ++ [key] })
        ∨ (finish = false ∧ walk.state[i]? = some .unseen ∧ next = { walk with
            state := walk.state.set i .visiting
            pending := pushes records keys key ++ (i, true) :: walk.pending })
        ∨ (finish = false ∧ walk.state[i]? ≠ some .unseen ∧ next = walk)) := by
  unfold visit at h
  split at h
  · cases h
  · cases h
  · next key seen hkey hseen =>
    refine ⟨key, hkey, ?_⟩
    split at h
    · next hfinish =>
      cases h
      exact .inl ⟨hfinish, rfl⟩
    · next hfinish =>
      have hfalse : finish = false := by simpa using hfinish
      split at h
      · next hunseen =>
        split at h
        · cases h
        · next bytes hbytes =>
          split at h
          · cases h
          · next op hop =>
            cases h
            refine .inr (.inl ⟨hfalse, by rw [hseen, hunseen], ?_⟩)
            rw [pushParents_eq_append]
            simp [pushes, hbytes, hop]
      · next hother =>
        cases h
        exact .inr (.inr ⟨hfalse, by rw [hseen]; simpa using hother, rfl⟩)

/-- The first visit of the one key pushes the other. -/
def Pushes (records : ExtTreeMap RecordKey Bytes) (keys : List RecordKey) (i j : ℕ) : Prop :=
  ∃ key, keys[i]? = some key ∧ (j, false) ∈ pushes records keys key

/-- How the stack and the finished keys are arranged. -/
structure Arranged (records : ExtTreeMap RecordKey Bytes) (keys : List RecordKey) (walk : Walk) :
    Prop where
  /-- What is above an open call is reached from it. -/
  reached : walk.pending.Pairwise fun above below =>
    below.2 = true → TransGen (Pushes records keys) below.1 above.1
  /-- A parent of an open call is finished, or above it, or it descends from the call. -/
  covered : ∀ above below i j, walk.pending = above ++ (i, true) :: below
    → Pushes records keys i j
    → walk.state[j]? = some .finished ∨ (∃ finish, (j, finish) ∈ above)
      ∨ TransGen (Pushes records keys) j i
  /-- A parent of a finished key comes before it, or descends from it. -/
  before : ∀ earlier later i j child parent, walk.ordered = earlier ++ child :: later
    → keys[i]? = some child → keys[j]? = some parent → Pushes records keys i j
    → parent ∈ earlier ∨ TransGen (Pushes records keys) j i

/-- A key that is finished is among the ordered ones. -/
lemma Consistent.mem_ordered {walk : Walk} (h : walk.Consistent keys) {j : ℕ} {key : RecordKey}
    (hstate : walk.state[j]? = some .finished) (hkey : keys[j]? = some key) :
    key ∈ walk.ordered := by
  obtain ⟨l, -, hordered, hfinished⟩ := h.finished
  rw [hordered]
  exact List.mem_filterMap.mpr ⟨j, (hfinished j).mpr hstate, hkey⟩

/-- An open key has its second visit on the stack. -/
lemma Consistent.mem_pending {walk : Walk} (h : walk.Consistent keys) {j : ℕ}
    (hstate : walk.state[j]? = some .visiting) : (j, true) ∈ walk.pending := by
  have hmem := (h.visiting j).mpr hstate
  unfold finishing at hmem
  obtain ⟨⟨i, finish⟩, hentry, rfl⟩ := List.mem_map.mp hmem
  obtain ⟨hentry, hfinish⟩ := List.mem_filter.mp hentry
  have hfinish : finish = true := hfinish
  rw [← hfinish]
  exact hentry

/-- A second visit finds every parent that does not descend from the key finished. -/
lemma Arranged.finish {walk : Walk} {i : ℕ} {key : RecordKey} {rest : List (ℕ × Bool)}
    (hkeys : keys.Nodup) (hkey : keys[i]? = some key)
    (hconsistent : Consistent keys { walk with pending := (i, true) :: rest })
    (h : Arranged records keys { walk with pending := (i, true) :: rest }) :
    Arranged records keys { walk with
      state := walk.state.set i .finished
      ordered := walk.ordered ++ [key]
      pending := rest } := by
  have hi : i < walk.state.length := by
    have hlength : walk.state.length = keys.length := hconsistent.length
    have := hconsistent.inside (i, true) List.mem_cons_self
    omega
  constructor
  case reached => exact (List.pairwise_cons.mp h.reached).2
  case covered =>
    intro above below i' j hsplit hpushes
    have hsplit' : (i, true) :: rest = ((i, true) :: above) ++ (i', true) :: below := by
      rw [List.cons_append]
      exact congrArg _ hsplit
    rcases h.covered _ _ _ _ hsplit' hpushes with hfinished | ⟨finish, hmem⟩ | hreach
    · refine .inl ?_
      show (walk.state.set i .finished)[j]? = some .finished
      have hfinished : walk.state[j]? = some .finished := hfinished
      grind
    · rcases List.mem_cons.mp hmem with heq | hmem
      · -- the parent is the key that is being finished
        cases heq
        refine .inl ?_
        show (walk.state.set i .finished)[i]? = some .finished
        rw [List.getElem?_set_self hi]
      · exact .inr (.inl ⟨finish, hmem⟩)
    · exact .inr (.inr hreach)
  case before =>
    intro earlier later i' j child parent hsplit hchild hparent hpushes
    have hsplit : walk.ordered ++ [key] = earlier ++ child :: later := hsplit
    rcases List.eq_nil_or_concat later with rfl | ⟨init, last, rfl⟩
    · -- the child is the key that is being finished
      obtain ⟨hearlier, hlast⟩ := List.append_inj' hsplit rfl
      cases hlast
      have hsame : i' = i := by
        have hlt := (List.getElem?_eq_some_iff.mp hchild).1
        exact (List.getElem?_inj hlt hkeys).mp (hchild.trans hkey.symm)
      subst hsame
      rcases h.covered [] rest _ _ rfl hpushes with hfinished | ⟨finish, hmem⟩ | hreach
      · exact .inl (hearlier ▸ hconsistent.mem_ordered hfinished hparent)
      · cases hmem
      · exact .inr hreach
    · rw [List.concat_eq_append, ← List.cons_append, ← List.append_assoc] at hsplit
      obtain ⟨hordered, -⟩ := List.append_inj' hsplit rfl
      exact h.before earlier init i' j child parent hordered hchild hparent hpushes

/-- A first visit opens a call and pushes its parents above it. -/
lemma Arranged.enter {walk : Walk} {i : ℕ} {key : RecordKey} {rest : List (ℕ × Bool)}
    (hkey : keys[i]? = some key) (hunseen : walk.state[i]? = some .unseen)
    (h : Arranged records keys { walk with pending := (i, false) :: rest }) :
    Arranged records keys { walk with
      state := walk.state.set i .visiting
      pending := pushes records keys key ++ (i, true) :: rest } := by
  obtain ⟨hfirst, hrest⟩ := List.pairwise_cons.mp h.reached
  have hfalse : ∀ e ∈ pushes records keys key, e.2 = false := by
    intro e he
    unfold pushes at he
    split at he
    · cases he
    · split at he
      · cases he
      · exact (of_mem_pushParents he).2
  have hpushed : ∀ e ∈ pushes records keys key, Pushes records keys i e.1 := by
    rintro ⟨j, finish⟩ he
    have hfinish : finish = false := hfalse _ he
    rw [hfinish] at he
    exact ⟨key, hkey, he⟩
  constructor
  case reached =>
    show (pushes records keys key ++ (i, true) :: rest).Pairwise _
    rw [List.pairwise_append]
    refine ⟨?_, List.pairwise_cons.mpr ⟨hfirst, hrest⟩, ?_⟩
    · refine List.pairwise_of_forall_mem_list ?_
      intro a ha b hb hopen
      rw [hfalse b hb] at hopen
      cases hopen
    · intro a ha b hb hopen
      rcases List.mem_cons.mp hb with rfl | hb
      · exact .single (hpushed a ha)
      · exact (hfirst b hb hopen).tail (hpushed a ha)
  case covered =>
    intro above below i' j hsplit hpushes
    have hsplit : pushes records keys key ++ (i, true) :: rest = above ++ (i', true) :: below :=
      hsplit
    -- the open call is the one just entered, or it was open before
    rcases List.append_eq_append_iff.mp hsplit with ⟨mid, habove, hmid⟩ | ⟨mid, hpushes', hmid⟩
    · cases mid with
      | nil =>
        cases hmid
        rw [List.append_nil] at habove
        obtain ⟨found, hfound, hmem⟩ := hpushes
        rw [hkey, Option.some.injEq] at hfound
        exact .inr (.inl ⟨false, by rw [habove, hfound]; exact hmem⟩)
      | cons entry mid =>
        cases hmid
        have hsplit' : (i, false) :: (mid ++ (i', true) :: below)
            = ((i, false) :: mid) ++ (i', true) :: below := rfl
        rcases h.covered _ _ _ _ hsplit' hpushes with hfinished | ⟨finish, hmem⟩ | hreach
        · refine .inl ?_
          show (walk.state.set i .visiting)[j]? = some .finished
          have hfinished : walk.state[j]? = some .finished := hfinished
          grind
        · refine .inr (.inl ?_)
          rcases List.mem_cons.mp hmem with heq | hmem
          · cases heq
            exact ⟨true, by rw [habove]; simp⟩
          · exact ⟨finish, by rw [habove]; simp [hmem]⟩
        · exact .inr (.inr hreach)
    · cases mid with
      | nil =>
        cases hmid
        rw [List.append_nil] at hpushes'
        obtain ⟨found, hfound, hmem⟩ := hpushes
        rw [hkey, Option.some.injEq] at hfound
        exact .inr (.inl ⟨false, by rw [← hpushes', hfound]; exact hmem⟩)
      | cons entry mid =>
        cases hmid
        have := hfalse (i', true) (by rw [hpushes']; simp)
        cases this
  case before => exact h.before

/-- An entry for a key that has been seen is dropped: if the key is still open, then it is above
the call that named it, or the call is above it and so reached from it. -/
lemma Arranged.drop {walk : Walk} {i : ℕ} {rest : List (ℕ × Bool)}
    (hconsistent : Consistent keys { walk with pending := (i, false) :: rest })
    (hseen : walk.state[i]? ≠ some .unseen)
    (h : Arranged records keys { walk with pending := (i, false) :: rest }) :
    Arranged records keys { walk with pending := rest } := by
  have hrest := (List.pairwise_cons.mp h.reached).2
  constructor
  case reached => exact hrest
  case covered =>
    intro above below i' j hsplit hpushes
    have hsplit : rest = above ++ (i', true) :: below := hsplit
    have hsplit' : (i, false) :: rest = ((i, false) :: above) ++ (i', true) :: below := by
      rw [hsplit, List.cons_append]
    rcases h.covered _ _ _ _ hsplit' hpushes with hfinished | ⟨finish, hmem⟩ | hreach
    · exact .inl hfinished
    · rcases List.mem_cons.mp hmem with heq | hmem
      · cases heq
        cases hstate : walk.state[i]? with
        | none =>
          have hlength : walk.state.length = keys.length := hconsistent.length
          have := hconsistent.inside (i, false) List.mem_cons_self
          rw [List.getElem?_eq_none_iff] at hstate
          omega
        | some seen =>
          cases seen with
          | unseen => exact absurd hstate hseen
          | finished => exact .inl rfl
          | visiting =>
            have hopen : (i, true) ∈ (i, false) :: rest := hconsistent.mem_pending hstate
            rcases List.mem_cons.mp hopen with heq | hopen
            · cases heq
            rw [hsplit] at hopen
            rcases List.mem_append.mp hopen with habove | hbelow
            · exact .inr (.inl ⟨true, habove⟩)
            · refine .inr (.inr ?_)
              rcases List.mem_cons.mp hbelow with heq | hbelow
              · cases heq
                exact .single hpushes
              · rw [hsplit] at hrest
                have hcall := (List.pairwise_append.mp hrest).2.1
                exact (List.pairwise_cons.mp hcall).1 _ hbelow rfl
      · exact .inr (.inl ⟨finish, hmem⟩)
    · exact .inr (.inr hreach)
  case before => exact h.before

/-- One entry keeps the arrangement. -/
lemma Arranged.visit (walk : Walk) {next : Walk} {i : ℕ} {finish : Bool} {rest : List (ℕ × Bool)}
    (hkeys : keys.Nodup) (hconsistent : Consistent keys { walk with pending := (i, finish) :: rest })
    (h : Arranged records keys { walk with pending := (i, finish) :: rest })
    (hvisit : Walk.visit records keys i finish { walk with pending := rest } = .ok next) :
    Arranged records keys next := by
  obtain ⟨key, hkey, ⟨rfl, rfl⟩ | ⟨rfl, hunseen, rfl⟩ | ⟨rfl, hseen, rfl⟩⟩ := visit_cases hvisit
  · exact h.finish hkeys hkey hconsistent
  · exact h.enter hkey hunseen
  · exact h.drop hconsistent hseen

/-- Enough steps are the whole loop, and the loop keeps the arrangement. -/
lemma drains_of_drain (hdecode : ∀ (key : RecordKey) bytes, records[key]? = some bytes →
      ∃ op, Schema.decodeOp bytes = .ok op)
    (hpresent : ∀ key ∈ keys, ∃ bytes, records[key]? = some bytes) (hkeys : keys.Nodup)
    {fuel : ℕ} {walk last : Walk} (hconsistent : walk.Consistent keys)
    (h : walk.Arranged records keys) (hdrain : walk.drain records keys fuel = .ok last)
    (hempty : last.pending = []) : Drains records keys walk last ∧ last.Arranged records keys := by
  induction fuel generalizing walk with
  | zero =>
    cases hdrain
    exact ⟨.done hempty, h⟩
  | succ fuel ih =>
    obtain ⟨state, ordered, pending⟩ := walk
    cases pending with
    | nil =>
      cases hdrain
      exact ⟨.done rfl, h⟩
    | cons entry rest =>
      obtain ⟨i, finish⟩ := entry
      obtain ⟨visited, hvisit, hvisited, -⟩ :=
        visit_spec hdecode hpresent ⟨state, ordered, rest⟩ hconsistent
      have hdrain : (Walk.visit records keys i finish ⟨state, ordered, rest⟩
          >>= Walk.drain records keys fuel) = .ok last := hdrain
      rw [hvisit] at hdrain
      have harranged : visited.Arranged records keys :=
        Arranged.visit ⟨state, ordered, rest⟩ hkeys hconsistent h hvisit
      obtain ⟨hdrains, hlast⟩ := ih hvisited harranged hdrain
      exact ⟨.next rfl hvisit hdrains, hlast⟩

/-- A start on an empty stack. -/
lemma Arranged.start {walk : Walk} (h : walk.Arranged records keys) (hempty : walk.pending = [])
    (start : ℕ) :
    Arranged records keys { walk with pending := (start, false) :: walk.pending } := by
  constructor
  case reached =>
    rw [hempty]
    exact List.pairwise_singleton _ _
  case covered =>
    intro above below i j hsplit _
    rw [hempty] at hsplit
    have hmem : (i, true) ∈ [(start, false)] := by
      have hsplit : [(start, false)] = above ++ (i, true) :: below := hsplit
      rw [hsplit]
      simp
    simp at hmem
  case before => exact h.before

/-- The walk is the two loops, and it keeps the arrangement. -/
lemma covers_of_walkFrom (hdecode : ∀ (key : RecordKey) bytes, records[key]? = some bytes →
      ∃ op, Schema.decodeOp bytes = .ok op)
    (hpresent : ∀ key ∈ keys, ∃ bytes, records[key]? = some bytes) (hkeys : keys.Nodup)
    {starts : List ℕ} (hstarts : ∀ i ∈ starts, i < keys.length) {walk last : Walk}
    (hconsistent : walk.Consistent keys) (hempty : walk.pending = [])
    (h : walk.Arranged records keys) (hwalk : walkFrom records keys starts walk = .ok last) :
    Covers records keys starts walk last ∧ last.Arranged records keys := by
  induction starts generalizing walk with
  | nil =>
    cases hwalk
    exact ⟨.nil _, h⟩
  | cons start starts ih =>
    have hopened := hconsistent.start hempty (hstarts start List.mem_cons_self)
    obtain ⟨drained, hdrain, hdrained, hdone, -⟩ :=
      drain_spec hdecode hpresent (walkLength records keys) _ hopened
        (remaining_start records keys hempty start)
    have hwalk : (drain records keys (walkLength records keys)
        { walk with pending := (start, false) :: walk.pending }
          >>= walkFrom records keys starts) = .ok last := hwalk
    rw [hdrain] at hwalk
    obtain ⟨hdrains, harranged⟩ :=
      drains_of_drain hdecode hpresent hkeys hopened (h.start hempty start) hdrain hdone
    obtain ⟨hcovers, hlast⟩ := ih (fun i hi => hstarts i (List.mem_cons_of_mem _ hi)) hdrained
      hdone harranged hwalk
    exact ⟨.cons hdrains hcovers, hlast⟩

end Walk

/-! ## The exported order -/

/-- Descent along pushed entries is descent of keys. -/
lemma descends_of_reach {records : ExtTreeMap RecordKey Bytes} {i j : ℕ} {child parent : RecordKey}
    (hreach : TransGen (Walk.Pushes records records.keys) i j)
    (hchild : records.keys[i]? = some child) (hparent : records.keys[j]? = some parent) :
    Descends records child parent := by
  induction hreach generalizing parent with
  | single hpushes =>
    obtain ⟨key, hkey, hmem⟩ := hpushes
    rw [hchild, Option.some.injEq] at hkey
    subst hkey
    exact .single ((names_iff_pushed hparent).mpr hmem)
  | tail _ hpushes ih =>
    obtain ⟨key, hkey, hmem⟩ := hpushes
    exact (ih hkey).tail ((names_iff_pushed hparent).mpr hmem)

/-- The walk that exports all records: the loops of `parent_first`, run to their end. -/
def Exports (records : ExtTreeMap RecordKey Bytes) (order : List RecordKey) : Prop :=
  ∃ walk, Walk.Covers records records.keys (List.range records.keys.length)
      { state := List.replicate records.keys.length .unseen } walk
    ∧ walk.ordered = order

/-- In the order of export a variant of a parent precedes the child, unless it descends from it. -/
def ParentFirst (records : ExtTreeMap RecordKey Bytes) (order : List RecordKey) : Prop :=
  ∀ earlier later child parent, order = earlier ++ child :: later → Names records child parent
    → parent ∈ earlier ∨ Descends records parent child

/-- The loops end, with the keys ordered parents first. -/
lemma parentFirst_spec {records : ExtTreeMap RecordKey Bytes}
    (hdecode : ∀ (key : RecordKey) bytes, records[key]? = some bytes →
      ∃ op, Schema.decodeOp bytes = .ok op) :
    ∃ order, parentFirst records = .ok order ∧ order.Perm records.keys
      ∧ Exports records order ∧ ParentFirst records order := by
  have hpresent : ∀ key ∈ records.keys, ∃ bytes, records[key]? = some bytes := by
    intro key hkey
    rw [ExtTreeMap.mem_keys, ExtTreeMap.mem_iff_isSome_getElem?] at hkey
    exact Option.isSome_iff_exists.mp hkey
  have hkeys : records.keys.Nodup := ExtTreeMap.nodup_keys
  have hstarts : ∀ i ∈ List.range records.keys.length, i < records.keys.length :=
    fun i hi => List.mem_range.mp hi
  have harranged : Walk.Arranged records records.keys
      { state := List.replicate records.keys.length .unseen } := by
    constructor
    case reached => exact List.Pairwise.nil
    case covered =>
      intro above below i j hsplit _
      exact absurd hsplit (by simp)
    case before =>
      intro earlier later i j child parent hsplit _ _ _
      exact absurd hsplit (by simp)
  obtain ⟨order, horder, hperm⟩ := parentFirst_perm hdecode
  obtain ⟨walk, hwalk, hfinal⟩ := bind_eq_ok.mp (show _ >>= _ = _ from horder)
  cases hfinal
  obtain ⟨hcovers, hlast⟩ := Walk.covers_of_walkFrom hdecode hpresent hkeys hstarts
    (Walk.consistent_unseen _) rfl harranged hwalk
  refine ⟨walk.ordered, horder, hperm, ⟨walk, hcovers, rfl⟩, ?_⟩
  intro earlier later child parent hsplit hnames
  have hmem : child ∈ records.keys := by
    rw [← hperm.mem_iff, hsplit]
    simp
  have hparent : parent ∈ records.keys := by
    obtain ⟨bytes, op, -, -, -, hparent⟩ := hnames
    exact ExtTreeMap.mem_keys.mpr hparent
  obtain ⟨i, hi⟩ := List.mem_iff_getElem?.mp hmem
  obtain ⟨j, hj⟩ := List.mem_iff_getElem?.mp hparent
  have hpushes : Walk.Pushes records records.keys i j :=
    ⟨child, hi, (names_iff_pushed hj).mp hnames⟩
  rcases hlast.before earlier later i j child parent hsplit hi hj hpushes with hearlier | hreach
  · exact .inl hearlier
  · exact .inr (descends_of_reach hreach hj hi)

variable [Blake3]

/-- Insert one encoding after another. -/
def Snapshot.insertEach (encodings : List Bytes) : Fallible IoError Snapshot Unit :=
  forM encodings fun encoded => do
    let _ ← Snapshot.insertEncoded encoded

/-- The records of a snapshot after encodings have been inserted into it. -/
lemma record_of_inserted {encodings : List Bytes} {s t : Snapshot}
    (h : (Snapshot.insertEach encodings).exec s = (.ok (), t)) (key : RecordKey) (bytes : Bytes) :
    t.record key = some bytes
      ↔ s.record key = some bytes ∨ bytes ∈ encodings ∧ RecordKey.fromEncoded bytes = .ok key := by
  unfold Snapshot.insertEach at h
  induction encodings generalizing s with
  | nil =>
    cases h
    simp
  | cons encoded encodings ih =>
    rw [List.forM_cons] at h
    obtain ⟨_, next, hinsert, hrest⟩ := exec_bind_eq_ok.mp h
    obtain ⟨found, next', hinsert, hnext⟩ := exec_bind_eq_ok.mp hinsert
    cases hnext
    rw [ih hrest, Snapshot.record_insertEncoded hinsert]
    simp only [List.mem_cons]
    constructor
    · rintro ((hold | ⟨rfl, hkey⟩) | ⟨hmem, hkey⟩)
      · exact .inl hold
      · exact .inr ⟨.inl rfl, hkey⟩
      · exact .inr ⟨.inr hmem, hkey⟩
    · rintro (hold | ⟨rfl | hmem, hkey⟩)
      · exact .inl (.inl hold)
      · exact .inl (.inr ⟨rfl, hkey⟩)
      · exact .inr ⟨hmem, hkey⟩

/-- The order depends on nothing but the records. -/
lemma orderedKeys_congr {s t : Snapshot} (h : ∀ key, s.record key = t.record key) :
    s.orderedKeys = t.orderedKeys := by
  have hrecords : s.records = t.records := ExtTreeMap.ext_getElem? fun {key} => h key
  unfold Snapshot.orderedKeys
  rw [hrecords]

/-- The export order of any retained records: the walk ends, every key is exported once, a variant
of a parent precedes the child unless it descends from it, and the order does not depend on the
order or the repetition of the insertions. -/
theorem export_is_parent_first (snapshot : Snapshot) :
    (∃ order, snapshot.orderedKeys = .ok order ∧ order.Nodup
      ∧ (∀ key, key ∈ order ↔ snapshot.contains key = true)
      ∧ Exports snapshot.records order ∧ ParentFirst snapshot.records order)
    ∧ (∀ other : Snapshot, (∀ key, other.record key = snapshot.record key)
      → other.orderedKeys = snapshot.orderedKeys)
    ∧ ∀ (encodings others : List Bytes) (t u : Snapshot),
      (∀ encoded, encoded ∈ encodings ↔ encoded ∈ others)
      → (Snapshot.insertEach encodings).exec snapshot = (.ok (), t)
      → (Snapshot.insertEach others).exec snapshot = (.ok (), u)
      → t.orderedKeys = u.orderedKeys := by
  refine ⟨?_, fun other hsame => orderedKeys_congr hsame,
    fun encodings others t u hsame ht hu => orderedKeys_congr fun key => ?_⟩
  · have hdecode : ∀ (key : RecordKey) bytes, snapshot.records[key]? = some bytes
        → ∃ op, Schema.decodeOp bytes = .ok op := fun key bytes hbytes =>
      decodeOp_of_fromEncoded (snapshot.derived key bytes hbytes)
    obtain ⟨order, horder, hperm, hexports, hfirst⟩ := parentFirst_spec hdecode
    refine ⟨order, horder, hperm.nodup_iff.mpr ExtTreeMap.nodup_keys, fun key => ?_, hexports,
      hfirst⟩
    rw [hperm.mem_iff, ExtTreeMap.mem_keys]
    exact ExtTreeMap.contains_iff_mem.symm
  · apply Option.ext
    intro bytes
    show t.record key = some bytes ↔ u.record key = some bytes
    rw [record_of_inserted ht, record_of_inserted hu, hsame bytes]

end EditChain.Sync
