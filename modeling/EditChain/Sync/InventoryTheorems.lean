import Mathlib.Data.List.Nodup
import Mathlib.Data.List.Perm.Basic
import Mathlib.Data.List.Range
import EditChain.Sync.Inventory

/-!
# Every key is exported exactly once

Each entry taken from the stack either finishes a key, enters an unseen one or is dropped, so that a
walk of bounded length empties the stack and finishes every key.
-/

namespace EditChain.Sync

open Core Fallible
open Std (ExtTreeMap)

variable {Op : Type} [Schema Op]

/-! ## Pushed entries -/

lemma variantIndices_lt {keys : List RecordKey} {parent : OpId} {i : ℕ}
    (h : i ∈ variantIndices keys parent) : i < keys.length := by
  unfold variantIndices partitionPoint at h
  rw [List.mem_range'_1] at h
  have hlast : (keys.takeWhile fun key => decide (key.id ≤ parent)).length ≤ keys.length :=
    (List.takeWhile_sublist _).length_le
  omega

lemma pushParents_eq_append (keys : List RecordKey) (parents : List OpId)
    (pending : List (ℕ × Bool)) :
    pushParents keys parents pending = pushParents keys parents [] ++ pending := by
  induction parents generalizing pending with
  | nil => rfl
  | cons parent parents ih =>
    show pushParents keys parents ((variantIndices keys parent).map (·, false) ++ pending) = _
    rw [ih]
    show _ = pushParents keys parents ((variantIndices keys parent).map (·, false) ++ []) ++ pending
    rw [ih (_ ++ []), List.append_nil, List.append_assoc]

lemma of_mem_pushParents {keys : List RecordKey} {parents : List OpId} {e : ℕ × Bool}
    (h : e ∈ pushParents keys parents []) : e.1 < keys.length ∧ e.2 = false := by
  induction parents with
  | nil => cases h
  | cons parent parents ih =>
    have h' : e ∈ pushParents keys parents ((variantIndices keys parent).map (·, false) ++ []) := h
    rw [pushParents_eq_append, List.append_nil] at h'
    rcases List.mem_append.mp h' with h' | h'
    · exact ih h'
    · obtain ⟨i, hi, rfl⟩ := List.mem_map.mp h'
      exact ⟨variantIndices_lt hi, rfl⟩

/-! ## The length of a walk -/

/-- The weights of the keys that are still unseen. -/
def unseenWeight : List ℕ → List Mark → ℕ
  | w :: ws, m :: ms => (if m = .unseen then w else 0) + unseenWeight ws ms
  | _, _ => 0

lemma unseenWeight_le (ws : List ℕ) (ms : List Mark) : unseenWeight ws ms ≤ ws.sum := by
  induction ws generalizing ms with
  | nil => simp [unseenWeight]
  | cons w ws ih =>
    cases ms with
    | nil => simp [unseenWeight]
    | cons m ms =>
      have := ih ms
      simp only [unseenWeight, List.sum_cons]
      split <;> omega

lemma unseenWeight_set_of_unseen {ws : List ℕ} {ms : List Mark} {i w : ℕ} {m : Mark}
    (hw : ws[i]? = some w) (hm : ms[i]? = some .unseen) (hne : m ≠ .unseen) :
    unseenWeight ws (ms.set i m) + w = unseenWeight ws ms := by
  induction ws generalizing ms i with
  | nil => simp at hw
  | cons v ws ih =>
    cases ms with
    | nil => simp at hm
    | cons n ms =>
      cases i with
      | zero =>
        simp only [List.getElem?_cons_zero, Option.some.injEq] at hw hm
        subst hw hm
        simp [unseenWeight, hne, Nat.add_comm]
      | succ i =>
        simp only [List.getElem?_cons_succ] at hw hm
        have := ih hw hm
        simp only [List.set_cons_succ, unseenWeight]
        omega

lemma unseenWeight_set_le (ws : List ℕ) (ms : List Mark) (i : ℕ) {m : Mark} (hne : m ≠ .unseen) :
    unseenWeight ws (ms.set i m) ≤ unseenWeight ws ms := by
  induction ws generalizing ms i with
  | nil => simp [unseenWeight]
  | cons v ws ih =>
    cases ms with
    | nil => simp
    | cons n ms =>
      cases i with
      | zero => simp [unseenWeight, hne]
      | succ i =>
        have := ih ms i
        simp only [List.set_cons_succ, unseenWeight]
        omega

/-- What each key adds to the length of a walk. -/
def weights (records : ExtTreeMap RecordKey Bytes) (keys : List RecordKey) : List ℕ :=
  keys.map fun key => 1 + (pushes records keys key).length

/-! ## The invariant of the walk -/

namespace Walk

/-- The keys whose second visit is on the stack. -/
def finishing (walk : Walk) : List ℕ := (walk.pending.filter (·.2)).map (·.1)

/-- The stack and the marks agree, and the finished keys are the ordered ones. -/
structure Consistent (keys : List RecordKey) (walk : Walk) : Prop where
  length : walk.state.length = keys.length
  inside : ∀ e ∈ walk.pending, e.1 < keys.length
  finished : ∃ l : List ℕ, l.Nodup ∧ walk.ordered = l.filterMap (keys[·]?) ∧
    ∀ i, i ∈ l ↔ walk.state[i]? = some .finished
  nodup : walk.finishing.Nodup
  visiting : ∀ i, i ∈ walk.finishing ↔ walk.state[i]? = some .visiting

/-- The entries that are still to be taken from the stack. -/
def remaining (records : ExtTreeMap RecordKey Bytes) (keys : List RecordKey) (walk : Walk) : ℕ :=
  walk.pending.length + unseenWeight (weights records keys) walk.state

variable {records : ExtTreeMap RecordKey Bytes} {keys : List RecordKey}

/-- The second visit of a key finishes it. -/
lemma visit_finish (records : ExtTreeMap RecordKey Bytes) {walk : Walk} {i : ℕ} {rest : List (ℕ × Bool)}
    (h : Consistent keys { walk with pending := (i, true) :: rest }) :
    ∃ next, visit records keys i true { walk with pending := rest } = .ok next ∧
      next.Consistent keys ∧ next.pending = rest ∧ next.state = walk.state.set i .finished := by
  have hi : i < keys.length := h.inside (i, true) List.mem_cons_self
  have hstate : i < walk.state.length := by
    rw [h.length]
    exact hi
  have hvisiting : walk.state[i]? = some .visiting :=
    (h.visiting i).mp (by simp [finishing])
  have hopen : i ∉ (rest.filter (·.2)).map (·.1) := by
    have hnodup := h.nodup
    simp only [finishing, List.filter_cons_of_pos, List.map_cons] at hnodup
    exact (List.nodup_cons.mp hnodup).1
  refine ⟨{ walk with
    state := walk.state.set i .finished, ordered := walk.ordered ++ [keys[i]], pending := rest },
    by simp [visit, List.getElem?_eq_getElem hi, hvisiting], ?_, rfl, rfl⟩
  obtain ⟨l, hl, hordered, hfinished⟩ := h.finished
  constructor
  case length => simpa using h.length
  case inside =>
    intro e he
    exact h.inside e (List.mem_cons_of_mem _ he)
  case finished =>
    refine ⟨l ++ [i], ?_, ?_, ?_⟩
    · have hil : i ∉ l := by
        rw [hfinished i]
        show walk.state[i]? ≠ _
        simp [hvisiting]
      exact List.nodup_append.mpr ⟨hl, by simp, by grind⟩
    · show walk.ordered ++ [keys[i]] = _
      rw [List.filterMap_append, ← hordered]
      simp [List.getElem?_eq_getElem hi]
    · intro j
      have hj := hfinished j
      grind
  case nodup =>
    have hnodup := h.nodup
    simp only [finishing, List.filter_cons_of_pos, List.map_cons] at hnodup
    exact (List.nodup_cons.mp hnodup).2
  case visiting =>
    intro j
    have hj := h.visiting j
    simp only [finishing, List.filter_cons_of_pos, List.map_cons, List.mem_cons] at hj ⊢
    grind

/-- The first visit of an unseen key enters it. -/
lemma visit_enter (hdecode : ∀ (key : RecordKey) bytes, records[key]? = some bytes →
      ∃ op, Schema.decodeOp bytes = .ok op)
    (hkeys : ∀ key ∈ keys, ∃ bytes, records[key]? = some bytes)
    {walk : Walk} {i : ℕ} {rest : List (ℕ × Bool)}
    (h : Consistent keys { walk with pending := (i, false) :: rest })
    (hunseen : walk.state[i]? = some .unseen) :
    ∃ next key, visit records keys i false { walk with pending := rest } = .ok next ∧
      keys[i]? = some key ∧ next.Consistent keys ∧
      next.pending = pushes records keys key ++ (i, true) :: rest ∧
      next.state = walk.state.set i .visiting := by
  have hi : i < keys.length := h.inside (i, false) List.mem_cons_self
  have hstate : i < walk.state.length := by
    rw [h.length]
    exact hi
  obtain ⟨bytes, hbytes⟩ := hkeys keys[i] (List.getElem_mem hi)
  obtain ⟨op, hop⟩ := hdecode _ _ hbytes
  have hpushes : pushes records keys keys[i] = pushParents keys (Schema.parentIds op) [] := by
    simp [pushes, hbytes, hop]
  refine ⟨{ walk with
    state := walk.state.set i .visiting
    pending := pushParents keys (Schema.parentIds op) ((i, true) :: rest) }, keys[i],
    by simp [visit, List.getElem?_eq_getElem hi, hunseen, hbytes, hop],
    List.getElem?_eq_getElem hi, ?_, ?_, rfl⟩
  rotate_left
  · show pushParents keys (Schema.parentIds op) ((i, true) :: rest) = _
    rw [pushParents_eq_append, hpushes]
  have hpending : pushParents keys (Schema.parentIds op) ((i, true) :: rest)
      = pushParents keys (Schema.parentIds op) [] ++ (i, true) :: rest := pushParents_eq_append ..
  -- the pushed entries are first visits, so only the key itself is added to the finishing ones
  have hfilter : (pushParents keys (Schema.parentIds op) []).filter (·.2) = [] := by
    rw [List.filter_eq_nil_iff]
    intro e he
    simp [(of_mem_pushParents he).2]
  constructor
  case length => simpa using h.length
  case inside =>
    intro e he
    rw [show _ = _ from hpending] at he
    rcases List.mem_append.mp he with he | he
    · exact (of_mem_pushParents he).1
    · rcases List.mem_cons.mp he with rfl | he
      · exact hi
      · exact h.inside e (List.mem_cons_of_mem _ he)
  case finished =>
    obtain ⟨l, hl, hordered, hfinished⟩ := h.finished
    refine ⟨l, hl, hordered, ?_⟩
    intro j
    have hj := hfinished j
    grind
  case nodup =>
    have hnodup := h.nodup
    have hvisiting := h.visiting i
    simp only [finishing, hpending, List.filter_append, hfilter, List.nil_append,
      List.filter_cons_of_pos, List.map_cons] at hnodup hvisiting ⊢
    grind
  case visiting =>
    intro j
    have hj := h.visiting j
    simp only [finishing, hpending, List.filter_append, hfilter, List.nil_append,
      List.filter_cons_of_pos, List.map_cons, List.mem_cons] at hj ⊢
    grind

/-- One entry: the walk stays consistent, gets shorter, forgets no mark and sees the entry's key. -/
lemma visit_spec (hdecode : ∀ (key : RecordKey) bytes, records[key]? = some bytes →
      ∃ op, Schema.decodeOp bytes = .ok op)
    (hkeys : ∀ key ∈ keys, ∃ bytes, records[key]? = some bytes)
    (walk : Walk) {i : ℕ} {finish : Bool} {rest : List (ℕ × Bool)}
    (h : Consistent keys { walk with pending := (i, finish) :: rest }) :
    ∃ next, visit records keys i finish { walk with pending := rest } = .ok next ∧
      next.Consistent keys ∧
      next.remaining records keys
        < remaining records keys { walk with pending := (i, finish) :: rest } ∧
      (∀ j : ℕ, walk.state[j]? ≠ some .unseen ∨ j = i → next.state[j]? ≠ some .unseen) ∧
      ∀ e ∈ rest, e ∈ next.pending := by
  have hi : i < keys.length := h.inside (i, finish) List.mem_cons_self
  have hstate : i < walk.state.length := by
    rw [h.length]
    exact hi
  cases finish with
  | true =>
    obtain ⟨next, hvisit, hnext, hpending, hmarks⟩ := visit_finish records h
    refine ⟨next, hvisit, hnext, ?_, ?_, ?_⟩
    · have hle := unseenWeight_set_le (weights records keys) walk.state i
        (show Mark.finished ≠ .unseen by decide)
      simp only [remaining, hpending, hmarks, List.length_cons]
      omega
    · intro j hj
      rw [hmarks]
      grind
    · rw [hpending]
      exact fun e he => he
  | false =>
    by_cases hunseen : walk.state[i]? = some .unseen
    · obtain ⟨next, key, hvisit, hkey, hnext, hpending, hmarks⟩ :=
        visit_enter hdecode hkeys h hunseen
      refine ⟨next, hvisit, hnext, ?_, ?_, ?_⟩
      · -- what is pushed was counted in the weight of the key
        have hweight : (weights records keys)[i]? = some (1 + (pushes records keys key).length) := by
          simp [weights, hkey]
        have heq := unseenWeight_set_of_unseen hweight hunseen
          (show Mark.visiting ≠ .unseen by decide)
        simp only [remaining, hpending, hmarks, List.length_append, List.length_cons]
        omega
      · intro j hj
        rw [hmarks]
        grind
      · intro e he
        rw [hpending]
        exact List.mem_append_right _ (List.mem_cons_of_mem _ he)
    · obtain ⟨seen, hseen⟩ : ∃ seen, walk.state[i]? = some seen :=
        ⟨_, List.getElem?_eq_getElem hstate⟩
      have hne : seen ≠ .unseen := fun heq => hunseen (heq ▸ hseen)
      refine ⟨{ walk with pending := rest },
        by simp [visit, List.getElem?_eq_getElem hi, hseen, hne], ?_, ?_, ?_, fun e he => he⟩
      · constructor
        case length => exact h.length
        case inside =>
          intro e he
          exact h.inside e (List.mem_cons_of_mem _ he)
        case finished => exact h.finished
        case nodup => simpa [finishing] using h.nodup
        case visiting => simpa [finishing] using h.visiting
      · simp only [remaining, List.length_cons]
        omega
      · rintro j (hj | rfl)
        · exact hj
        · exact hunseen

/-- Enough steps empty the stack and see every key on it. -/
lemma drain_spec (hdecode : ∀ (key : RecordKey) bytes, records[key]? = some bytes →
      ∃ op, Schema.decodeOp bytes = .ok op)
    (hkeys : ∀ key ∈ keys, ∃ bytes, records[key]? = some bytes)
    (fuel : ℕ) (walk : Walk) (h : walk.Consistent keys)
    (hfuel : walk.remaining records keys ≤ fuel) :
    ∃ next, walk.drain records keys fuel = .ok next ∧ next.Consistent keys ∧ next.pending = [] ∧
      (∀ i : ℕ, walk.state[i]? ≠ some .unseen → next.state[i]? ≠ some .unseen) ∧
      ∀ e ∈ walk.pending, next.state[e.1]? ≠ some .unseen := by
  induction fuel generalizing walk with
  | zero =>
    have hempty : walk.pending = [] := by
      have : walk.pending.length = 0 := by
        unfold remaining at hfuel
        omega
      exact List.length_eq_zero_iff.mp this
    exact ⟨walk, rfl, h, hempty, fun _ hi => hi, by simp [hempty]⟩
  | succ fuel ih =>
    obtain ⟨state, ordered, pending⟩ := walk
    cases pending with
    | nil => exact ⟨_, rfl, h, rfl, fun _ hi => hi, by simp⟩
    | cons e rest =>
      obtain ⟨i, finish⟩ := e
      obtain ⟨walk, hvisit, hwalk, hless, hseen, hrest⟩ :=
        visit_spec hdecode hkeys ⟨state, ordered, rest⟩ h
      obtain ⟨next, hdrain, hnext, hempty, hkept, hpopped⟩ :=
        ih walk hwalk (Nat.le_of_lt_succ (lt_of_lt_of_le hless hfuel))
      refine ⟨next, ?_, hnext, hempty, ?_, ?_⟩
      · show (visit records keys i finish ⟨state, ordered, rest⟩ >>= drain records keys fuel) = _
        rw [hvisit]
        exact hdrain
      · intro j hj
        exact hkept j (hseen j (.inl hj))
      · intro e he
        rcases List.mem_cons.mp he with rfl | he
        · exact hkept i (hseen i (.inr rfl))
        · exact hpopped e (hrest e he)

/-- A start on an empty stack. -/
lemma Consistent.start {walk : Walk} (h : walk.Consistent keys) (hempty : walk.pending = []) {i : ℕ}
    (hi : i < keys.length) :
    Consistent keys { walk with pending := (i, false) :: walk.pending } := by
  obtain ⟨state, ordered, pending⟩ := walk
  subst hempty
  constructor
  case length => exact h.length
  case inside => simpa using hi
  case finished => exact h.finished
  case nodup => simp [finishing]
  case visiting => simpa [finishing] using h.visiting

/-- The walk from one start is within the bound. -/
lemma remaining_start (records : ExtTreeMap RecordKey Bytes) (keys : List RecordKey) {walk : Walk}
    (hempty : walk.pending = []) (i : ℕ) :
    remaining records keys { walk with pending := (i, false) :: walk.pending }
      ≤ walkLength records keys := by
  have hle := unseenWeight_le (weights records keys) walk.state
  simp only [remaining, walkLength, hempty, List.length_singleton]
  unfold weights at hle ⊢
  omega

/-- Before the walk nothing is seen. -/
lemma consistent_unseen (keys : List RecordKey) :
    Consistent keys { state := List.replicate keys.length .unseen } := by
  constructor
  case length => simp
  case inside => simp
  case finished => exact ⟨[], List.nodup_nil, rfl, by intro i; simp [List.getElem?_replicate]⟩
  case nodup => simp [finishing]
  case visiting =>
    intro i
    simp [finishing, List.getElem?_replicate]

/-- The walk from every start sees every start. -/
lemma walkFrom_spec (hdecode : ∀ (key : RecordKey) bytes, records[key]? = some bytes →
      ∃ op, Schema.decodeOp bytes = .ok op)
    (hkeys : ∀ key ∈ keys, ∃ bytes, records[key]? = some bytes)
    (starts : List ℕ) (hstarts : ∀ i ∈ starts, i < keys.length) (walk : Walk)
    (h : walk.Consistent keys) (hempty : walk.pending = []) :
    ∃ next, walkFrom records keys starts walk = .ok next ∧ next.Consistent keys ∧
      next.pending = [] ∧
      (∀ i : ℕ, walk.state[i]? ≠ some .unseen → next.state[i]? ≠ some .unseen) ∧
      ∀ i ∈ starts, next.state[i]? ≠ some .unseen := by
  induction starts generalizing walk with
  | nil => exact ⟨walk, rfl, h, hempty, fun _ hi => hi, by simp⟩
  | cons i starts ih =>
    have hpushed := h.start hempty (hstarts i List.mem_cons_self)
    have hfuel := remaining_start records keys hempty i
    obtain ⟨mid, hdrain, hmid, hmidempty, hkept, hpopped⟩ :=
      drain_spec hdecode hkeys _ _ hpushed hfuel
    obtain ⟨next, hwalk, hnext, hnextempty, hlater, hseen⟩ :=
      ih (fun j hj => hstarts j (List.mem_cons_of_mem _ hj)) mid hmid hmidempty
    refine ⟨next, ?_, hnext, hnextempty, ?_, ?_⟩
    · show (drain records keys (walkLength records keys)
          { walk with pending := (i, false) :: walk.pending }
        >>= walkFrom records keys starts) = _
      rw [hdrain]
      exact hwalk
    · intro j hj
      exact hlater j (hkept j hj)
    · intro j hj
      rcases List.mem_cons.mp hj with rfl | hj
      · exact hlater j (hpopped (j, false) List.mem_cons_self)
      · exact hseen j hj

end Walk

lemma filterMap_getElem?_range {α : Type} (l : List α) :
    (List.range l.length).filterMap (l[·]?) = l := by
  induction l using List.reverseRecOn with
  | nil => rfl
  | append_singleton l a ih =>
    have hinit : (List.range l.length).filterMap ((l ++ [a])[·]?)
        = (List.range l.length).filterMap (l[·]?) := by
      apply List.filterMap_congr
      intro i hi
      exact List.getElem?_append_left (List.mem_range.mp hi)
    rw [List.length_append, List.length_singleton, List.range_succ, List.filterMap_append, hinit,
      ih]
    simp

/-- The export order of decodable records holds every key exactly once. -/
theorem parentFirst_perm {records : ExtTreeMap RecordKey Bytes}
    (hdecode : ∀ (key : RecordKey) bytes, records[key]? = some bytes →
      ∃ op, Schema.decodeOp bytes = .ok op) :
    ∃ order, parentFirst records = .ok order ∧ order.Perm records.keys := by
  have hkeys : ∀ key ∈ records.keys, ∃ bytes, records[key]? = some bytes := by
    intro key hkey
    rw [ExtTreeMap.mem_keys, ExtTreeMap.mem_iff_isSome_getElem?] at hkey
    exact Option.isSome_iff_exists.mp hkey
  obtain ⟨walk, hwalk, hconsistent, hempty, -, hseen⟩ :=
    Walk.walkFrom_spec hdecode hkeys (List.range records.keys.length)
      (fun i hi => List.mem_range.mp hi) _ (Walk.consistent_unseen _) rfl
  refine ⟨walk.ordered, by simp only [parentFirst, hwalk]; rfl, ?_⟩
  obtain ⟨l, hl, hordered, hfinished⟩ := hconsistent.finished
  -- with an empty stack nothing is being visited, so every key is finished
  have hall : ∀ i, i ∈ l ↔ i ∈ List.range records.keys.length := by
    intro i
    have hvisiting := hconsistent.visiting i
    simp only [Walk.finishing, hempty, List.filter_nil, List.map_nil, List.not_mem_nil,
      false_iff] at hvisiting
    rw [hfinished, List.mem_range, ← hconsistent.length]
    constructor
    · intro h
      exact (List.getElem?_eq_some_iff.mp h).1
    · intro hi
      have := hseen i (by rw [List.mem_range, ← hconsistent.length]; exact hi)
      rw [List.getElem?_eq_getElem hi] at this hvisiting ⊢
      cases h : walk.state[i] <;> simp_all
  have hperm : l.Perm (List.range records.keys.length) :=
    (List.perm_ext_iff_of_nodup hl List.nodup_range).mpr hall
  rw [hordered]
  have hmapped := hperm.filterMap (records.keys[·]?)
  rwa [filterMap_getElem?_range] at hmapped

/-- A snapshot's records all decode, so that its keys can always be ordered. -/
theorem Snapshot.orderedKeys_perm [Blake3] (snapshot : Snapshot) :
    ∃ order, snapshot.orderedKeys = .ok order ∧ order.Perm snapshot.records.keys := by
  apply parentFirst_perm
  intro key bytes h
  exact decodeOp_of_fromEncoded (snapshot.derived key bytes h)

end EditChain.Sync
