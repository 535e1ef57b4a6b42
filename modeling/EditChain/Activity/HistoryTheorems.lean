import EditChain.Activity.ReplayTheorems
import Mathlib.Data.Fintype.Card

/-!
# Replayed content is the linked history

The updates of a block name their predecessors. Where replay returns content, these links run into
no cycle and into no known operation outside the block, and they make one chain that ends in the
head: the content is that of the chain from its nearest replacement on. Several heads are left only
where every update is a whole snapshot of one recorder, and then the greatest sequence counts.
-/

namespace EditChain.Activity

open Migration (AddressHash)
open Fallible

namespace Updates

variable {conflicts : Finset OpId} {records : OpId → Option Operation} {updates : Updates}

/-! ## Links -/

/-- An identity that a link may name: not in conflict, and of this block if its record is known. -/
def Sane (conflicts : Finset OpId) (records : OpId → Option Operation) (updates : Updates)
    (id : OpId) : Prop :=
  id ∉ conflicts ∧ (updates.get id = none → records id = none)

/-- An update whose link, if it has one, names such an identity. -/
def Linked (conflicts : Finset OpId) (records : OpId → Option Operation) (updates : Updates)
    (id : OpId) : Prop :=
  ∃ record value, updates.get id = some (record, value)
    ∧ ∀ other, value.previous = some other → Sane conflicts records updates other

/-- A walk that ends well starts at an identity that a link may name, and the updates it adds to its
path are linked. -/
lemma walk_linked {done path path' : Finset OpId} {cursor : Option OpId}
    (hdone : ∀ id ∈ done, Linked conflicts records updates id)
    (h : walk conflicts records updates done path cursor = .ok path') :
    (∀ id, cursor = some id → Sane conflicts records updates id)
      ∧ (∀ id, cursor = some id → (updates.get id).isSome → Linked conflicts records updates id)
      ∧ ∀ id ∈ path', id ∈ path ∨ Linked conflicts records updates id := by
  fun_induction walk conflicts records updates done path cursor with
  | case1 path =>
    cases h
    refine ⟨fun id hid => ?_, fun id hid => ?_, fun _ => .inl⟩
    · cases hid
    · cases hid
  | case2 => cases h
  | case3 path id hconflict hmem =>
    cases h
    have hlinked := hdone id hmem
    refine ⟨?_, ?_, fun _ => .inl⟩
    · rintro _ ⟨⟩
      obtain ⟨record, value, hget, -⟩ := hlinked
      refine ⟨hconflict, fun hnone => ?_⟩
      rw [hnone] at hget
      cases hget
    · rintro _ ⟨⟩ -
      exact hlinked
  | case4 => cases h
  | case5 path id hconflict hmem hget hrecord =>
    cases h
    refine ⟨?_, ?_, fun _ => .inl⟩
    · rintro _ ⟨⟩
      exact ⟨hconflict, fun _ => by simpa using hrecord⟩
    · rintro _ ⟨⟩ hsome
      rw [hget] at hsome
      cases hsome
  | case6 => cases h
  | case7 path id hconflict hmem record value hget hnew ih =>
    obtain ⟨hsane, -, hpath⟩ := ih h
    have hid : Linked conflicts records updates id := ⟨record, value, hget, hsane⟩
    refine ⟨?_, ?_, fun other hother => ?_⟩
    · rintro _ ⟨⟩
      refine ⟨hconflict, fun hnone => ?_⟩
      rw [hnone] at hget
      cases hget
    · rintro _ ⟨⟩ -
      exact hid
    · rcases hpath other hother with hother | hother
      · rcases Finset.mem_insert.mp hother with rfl | hother
        · exact .inr hid
        · exact .inl hother
      · exact .inr hother

lemma validateFrom_linked {done : Finset OpId} {starts : List OpId}
    (hdone : ∀ id ∈ done, Linked conflicts records updates id)
    (h : validateFrom conflicts records updates done starts = .ok ()) :
    ∀ id ∈ starts, (updates.get id).isSome → Linked conflicts records updates id := by
  induction starts generalizing done with
  | nil => simp
  | cons start starts ih =>
    rw [validateFrom] at h
    obtain ⟨path, hwalk, h⟩ := bind_eq_ok.mp h
    obtain ⟨-, hstart, hpath⟩ := walk_linked hdone hwalk
    have hdone' : ∀ id ∈ done ∪ path, Linked conflicts records updates id := by
      intro id hid
      rcases Finset.mem_union.mp hid with hid | hid
      · exact hdone id hid
      · rcases hpath id hid with hempty | hlinked
        · cases hempty
        · exact hlinked
    intro id hid hsome
    rcases List.mem_cons.mp hid with rfl | hid
    · exact hstart id rfl hsome
    · exact ih hdone' h id hid hsome

/-- Where validation succeeds, every link names an identity that it may name. -/
lemma sane_of_validate (h : validatePredecessors conflicts records updates = .ok ())
    {id other : OpId} (hnames : Names updates id other) : Sane conflicts records updates other := by
  obtain ⟨record, value, hget, hprevious⟩ := hnames
  have hsome : (updates.get id).isSome := by rw [hget]; rfl
  obtain ⟨record', value', hget', hsane⟩ :=
    validateFrom_linked (by simp) h id (mem_keys_of_get hget) hsome
  rw [hget] at hget'
  cases hget'
  exact hsane other hprevious

/-! ## Heads -/

lemma get_of_mem (hnodup : updates.keys.Nodup) {id : OpId} {record : Operation}
    {value : ContentUpdate} (hmem : (id, record, value) ∈ updates) :
    updates.get id = some (record, value) := by
  induction updates with
  | nil => cases hmem
  | cons entry updates ih =>
    obtain ⟨hnew, hnodup⟩ := List.nodup_cons.mp hnodup
    unfold get
    rcases List.mem_cons.mp hmem with rfl | hmem
    · rw [List.find?_cons_of_pos (by simp)]
      rfl
    · have hne : entry.1 ≠ id := by
        rintro rfl
        exact hnew (List.mem_map.mpr ⟨_, hmem, rfl⟩)
      rw [List.find?_cons_of_neg (by simpa using hne)]
      exact ih hnodup hmem

lemma mem_of_get {id : OpId} {found : Operation × ContentUpdate}
    (h : updates.get id = some found) : (id, found) ∈ updates := by
  unfold get at h
  obtain ⟨entry, hfind, rfl⟩ := Option.map_eq_some_iff.mp h
  have hid := List.find?_some hfind
  rw [decide_eq_true_eq] at hid
  subst hid
  exact List.mem_of_find?_eq_some hfind

/-- An update that no update names. -/
lemma mem_heads (hnodup : updates.keys.Nodup) {id : OpId} :
    id ∈ updates.heads ↔ id ∈ updates.keys ∧ ∀ other, ¬ Names updates other id := by
  unfold heads
  rw [List.mem_filter, decide_eq_true_eq, List.mem_map]
  refine and_congr_right fun _ => ?_
  constructor
  · intro hnone other hnames
    obtain ⟨record, value, hget, hprevious⟩ := hnames
    exact hnone ⟨(other, record, value), mem_of_get hget, hprevious⟩
  · intro hnone hsome
    obtain ⟨⟨other, record, value⟩, hmem, hprevious⟩ := hsome
    exact hnone other ⟨record, value, get_of_mem hnodup hmem, hprevious⟩

/-- Without a cycle, every update is below a head: going from an update to one that names it comes
to an end, as there are finitely many. -/
lemma exists_head_above (hnodup : updates.keys.Nodup)
    (hacyclic : ∀ id, ¬ Relation.TransGen (Names updates) id id) {id : OpId}
    (hid : id ∈ updates.keys) :
    ∃ head ∈ updates.heads, Relation.ReflTransGen (Names updates) head id := by
  let above (a b : { id // id ∈ updates.keys }) : Prop :=
    Relation.TransGen (Names updates) a.1 b.1
  have : IsTrans _ above := ⟨fun _ _ _ => Relation.TransGen.trans⟩
  have : Std.Irrefl above := ⟨fun a => hacyclic a.1⟩
  have hfounded : WellFounded above := Finite.wellFounded_of_trans_of_irrefl above
  have hall : ∀ a : { id // id ∈ updates.keys },
      ∃ head ∈ updates.heads, Relation.ReflTransGen (Names updates) head a.1 := by
    intro a
    induction a using hfounded.induction with
    | _ a ih =>
      by_cases hhead : a.1 ∈ updates.heads
      · exact ⟨a.1, hhead, .refl⟩
      · rw [mem_heads hnodup, not_and] at hhead
        obtain ⟨other, hnames⟩ := not_forall_not.mp (hhead a.2)
        have hother : other ∈ updates.keys := by
          obtain ⟨record, value, hget, -⟩ := hnames
          exact mem_keys_of_get hget
        obtain ⟨head, hmem, hpath⟩ := ih ⟨other, hother⟩ (.single hnames)
        exact ⟨head, hmem, hpath.tail hnames⟩
  exact hall ⟨id, hid⟩

/-! ## Several heads -/

/-- What the snapshots in order are. -/
lemma orderFrom_eq_some {recorder : ItemId} {ids : List OpId}
    {ordered result : List (UInt64 × OpId)}
    (hdistinct : (ordered.map Prod.fst).Nodup)
    (h : orderFrom updates recorder ordered ids = some result) :
    (result.map Prod.fst).Nodup
    ∧ (∀ entry ∈ result, entry ∈ ordered ∨ entry.2 ∈ ids ∧ ∃ record value,
      updates.get entry.2 = some (record, value) ∧ record.sequence = some entry.1)
    ∧ (∀ entry ∈ ordered, entry ∈ result)
    ∧ ∀ id ∈ ids, ∃ record value sequence, updates.get id = some (record, value)
      ∧ record.recorder = recorder ∧ value.mode = .replace ∧ value.previous = none
      ∧ record.sequence = some sequence ∧ (sequence, id) ∈ result := by
  induction ids generalizing ordered with
  | nil =>
    cases h
    exact ⟨hdistinct, fun _ => .inl, fun _ => id, by simp⟩
  | cons id ids ih =>
    rw [orderFrom] at h
    obtain ⟨⟨record, value⟩, hget, h⟩ := Option.bind_eq_some_iff.mp h
    dsimp only at h
    split at h
    · cases h
    · next hfits =>
      rw [not_or, not_or, not_not, not_not] at hfits
      obtain ⟨hrecorder, hmode, hprevious⟩ := hfits
      obtain ⟨sequence, hsequence, h⟩ := Option.bind_eq_some_iff.mp h
      split at h
      · cases h
      · next hfresh =>
        have hnew : sequence ∉ ordered.map Prod.fst := by
          intro hmem
          obtain ⟨entry, hentry, rfl⟩ := List.mem_map.mp hmem
          exact hfresh (List.any_eq_true.mpr ⟨entry, hentry, decide_eq_true rfl⟩)
        have hdistinct' : (((sequence, id) :: ordered).map Prod.fst).Nodup :=
          List.nodup_cons.mpr ⟨hnew, hdistinct⟩
        obtain ⟨hnodup, hback, hkept, hall⟩ := ih hdistinct' h
        refine ⟨hnodup, ?_, fun entry hentry => hkept entry (List.mem_cons_of_mem _ hentry), ?_⟩
        · intro entry hentry
          rcases hback entry hentry with hentry | hentry
          · rcases List.mem_cons.mp hentry with rfl | hentry
            · exact .inr ⟨List.mem_cons_self .., record, value, hget, hsequence⟩
            · exact .inl hentry
          · exact .inr ⟨List.mem_cons_of_mem _ hentry.1, hentry.2⟩
        · intro other hother
          rcases List.mem_cons.mp hother with rfl | hother
          · exact ⟨record, value, sequence, hget, hrecorder, hmode, by simpa using hprevious,
              hsequence, hkept _ (List.mem_cons_self ..)⟩
          · exact hall other hother

/-- The last of the snapshots has the greatest sequence. -/
lemma lastOf_eq_some {ordered : List (UInt64 × OpId)} {last : UInt64 × OpId}
    (h : lastOf ordered = some last) : last ∈ ordered ∧ ∀ entry ∈ ordered, entry.1 ≤ last.1 := by
  induction ordered generalizing last with
  | nil => cases h
  | cons entry ordered ih =>
    rw [lastOf] at h
    split at h
    · next other hother =>
      obtain ⟨hmem, hgreatest⟩ := ih hother
      split at h
      · next hlt =>
        cases h
        refine ⟨List.mem_cons_self .., fun e he => ?_⟩
        rcases List.mem_cons.mp he with rfl | he
        · exact UInt64.le_refl _
        · exact UInt64.le_trans (hgreatest e he) (UInt64.le_of_lt hlt)
      · next hle =>
        cases h
        refine ⟨List.mem_cons_of_mem _ hmem, fun e he => ?_⟩
        rcases List.mem_cons.mp he with rfl | he
        · exact UInt64.not_lt.mp hle
        · exact hgreatest e he
    · next hnone =>
      cases h
      refine ⟨List.mem_cons_self .., fun e he => ?_⟩
      rcases List.mem_cons.mp he with rfl | he
      · exact UInt64.le_refl _
      · cases ordered with
        | nil => cases he
        | cons first rest =>
          rw [lastOf] at hnone
          split at hnone
          · split at hnone <;> cases hnone
          · cases hnone

/-- Whole snapshots of one recorder with different sequences, of which one has the greatest. -/
structure Snapshots (updates : Updates) (head : OpId) : Prop where
  whole : ∀ id record value, updates.get id = some (record, value) →
    value.mode = .replace ∧ value.previous = none ∧ record.sequence.isSome
  recorder : ∀ a b record value record' value', updates.get a = some (record, value) →
    updates.get b = some (record', value') → record.recorder = record'.recorder
  distinct : ∀ a b record value record' value', updates.get a = some (record, value) →
    updates.get b = some (record', value') → record.sequence = record'.sequence → a = b
  greatest : ∃ record value sequence, updates.get head = some (record, value)
    ∧ record.sequence = some sequence
    ∧ ∀ id record' value' sequence', updates.get id = some (record', value') →
      record'.sequence = some sequence' → sequence' ≤ sequence

/-- Several heads are ordered only where every update is a head and a snapshot. -/
lemma snapshots_of_ordered (hnodup : updates.keys.Nodup)
    (hacyclic : ∀ id, ¬ Relation.TransGen (Names updates) id id) {head : OpId}
    (h : updates.orderedSnapshot updates.heads = some head) : Snapshots updates head := by
  unfold orderedSnapshot at h
  obtain ⟨first, hfirst, h⟩ := Option.bind_eq_some_iff.mp h
  obtain ⟨⟨record₀, value₀⟩, hget₀, h⟩ := Option.bind_eq_some_iff.mp h
  obtain ⟨ordered, hordered, h⟩ := Option.bind_eq_some_iff.mp h
  obtain ⟨⟨sequence, last⟩, hlast, h⟩ := Option.bind_eq_some_iff.mp h
  cases Option.some.inj h
  obtain ⟨hdistinct, hback, -, hall⟩ := orderFrom_eq_some (by simp) hordered
  obtain ⟨hmem, hgreatest⟩ := lastOf_eq_some hlast
  -- A head has no predecessor, so nothing but itself is below it.
  have hhead : ∀ id ∈ updates.keys, id ∈ updates.heads := by
    intro id hid
    obtain ⟨above, habove, hpath⟩ := exists_head_above hnodup hacyclic hid
    rcases Relation.ReflTransGen.cases_head hpath with rfl | ⟨other, hnames, -⟩
    · exact habove
    · obtain ⟨record, value, sequence, hget, -, -, hprevious, -⟩ := hall above habove
      obtain ⟨record', value', hget', hprevious'⟩ := hnames
      rw [hget] at hget'
      cases hget'
      rw [hprevious] at hprevious'
      cases hprevious'
  have hspec : ∀ id record value, updates.get id = some (record, value) →
      record.recorder = record₀.recorder ∧ value.mode = .replace ∧ value.previous = none
        ∧ ∃ sequence, record.sequence = some sequence ∧ (sequence, id) ∈ ordered := by
    intro id record value hget
    obtain ⟨record', value', sequence, hget', hrecorder, hmode, hprevious, hsequence, hin⟩ :=
      hall id (hhead id (mem_keys_of_get hget))
    rw [hget] at hget'
    cases hget'
    exact ⟨hrecorder, hmode, hprevious, sequence, hsequence, hin⟩
  refine ⟨?_, ?_, ?_, ?_⟩
  · intro id record value hget
    obtain ⟨-, hmode, hprevious, sequence, hsequence, -⟩ := hspec id record value hget
    exact ⟨hmode, hprevious, by rw [hsequence]; rfl⟩
  · intro a b record value record' value' ha hb
    rw [(hspec a record value ha).1, (hspec b record' value' hb).1]
  · intro a b record value record' value' ha hb hsame
    obtain ⟨-, -, -, sequence, hsequence, hin⟩ := hspec a record value ha
    obtain ⟨-, -, -, sequence', hsequence', hin'⟩ := hspec b record' value' hb
    rw [hsequence, hsequence'] at hsame
    cases hsame
    have heq := List.inj_on_of_nodup_map hdistinct hin hin' rfl
    exact congrArg Prod.snd heq
  · rcases hback _ hmem with hempty | ⟨-, record, value, hget, hsequence⟩
    · cases hempty
    · refine ⟨record, value, sequence, hget, hsequence, ?_⟩
      intro id record' value' sequence' hget' hsequence'
      obtain ⟨-, -, -, found, hfound, hin⟩ := hspec id record' value' hget'
      rw [hsequence'] at hfound
      cases hfound
      exact hgreatest _ hin

/-! ## The chain of the head -/

/-- The updates that make the content at an update, oldest first: back to the nearest replacement,
or else to the earliest update that is known. The flag says whether a replacement was reached. -/
inductive History (updates : Updates) : Option OpId → List ContentUpdate → Bool → Prop where
  | start : History updates none [] false
  | missing {id : OpId} (h : updates.get id = none) : History updates (some id) [] false
  | replace {id : OpId} {record : Operation} {value : ContentUpdate}
      (h : updates.get id = some (record, value)) (hmode : value.mode = .replace) :
      History updates (some id) [value] true
  | append {id : OpId} {record : Operation} {value : ContentUpdate} {older : List ContentUpdate}
      {complete : Bool} (h : updates.get id = some (record, value)) (hmode : value.mode = .append)
      (previous : History updates value.previous older complete) :
      History updates (some id) (older ++ [value]) complete

/-- The contents of updates, oldest first, as a resolver gives them when it is asked for the newest
first. -/
inductive Resolves {σ : Type} (resolve : Payload → σ → Option Bytes × σ) :
    List ContentUpdate → σ → List Bytes → σ → Prop where
  | nil (s : σ) : Resolves resolve [] s [] s
  | newest {value : ContentUpdate} {older : List ContentUpdate} {s s' s'' : σ} {bytes : Bytes}
      {contents : List Bytes} (hempty : value.content ≠ .empty)
      (h : resolve value.content s = (some bytes, s'))
      (rest : Resolves resolve older s' contents s'') :
      Resolves resolve (older ++ [value]) s (contents ++ [bytes]) s''

/-- The parts of the content are the contents of the history. -/
lemma parts_eq_some {σ : Type} {resolve : Payload → σ → Option Bytes × σ} {s s' : σ}
    {seen : Finset OpId} {cursor : Option OpId} {contents : List Bytes} {complete : Bool}
    (h : parts resolve updates seen cursor s = some (.ok (contents, complete), s')) :
    ∃ values, History updates cursor values complete
      ∧ Resolves resolve values s contents s' := by
  fun_induction parts resolve updates seen cursor s generalizing contents complete s' with
  | case1 =>
    cases h
    exact ⟨[], .start, .nil _⟩
  | case2 seen s id hget =>
    cases h
    exact ⟨[], .missing hget, .nil _⟩
  | case3 => cases h
  | case4 => cases h
  | case5 => cases h
  | case6 seen s id record value hget hnew hempty bytes s₁ hresolve hmode =>
    cases h
    exact ⟨[value], .replace hget hmode, .newest hempty hresolve (.nil _)⟩
  | case7 seen s id record value hget hnew hempty bytes s₁ hresolve hmode older complete' s₂
      hparts ih =>
    cases h
    obtain ⟨values, hhistory, hresolves⟩ := ih hparts
    have happend : value.mode = .append := by
      cases hvalue : value.mode with
      | append => rfl
      | replace => exact absurd hvalue hmode
    exact ⟨values ++ [value], .append hget happend hhistory, .newest hempty hresolve hresolves⟩
  | case8 => cases h
  | case9 => cases h

/-- A replacement is its own history. -/
lemma History.of_replace {id : OpId} {record : Operation} {value : ContentUpdate}
    {values : List ContentUpdate} {complete : Bool}
    (hget : updates.get id = some (record, value)) (hmode : value.mode = .replace)
    (h : History updates (some id) values complete) : values = [value] ∧ complete = true := by
  cases h with
  | missing hnone => rw [hnone] at hget; cases hget
  | replace hget' _ =>
    rw [hget] at hget'
    cases hget'
    exact ⟨rfl, rfl⟩
  | append hget' happend _ =>
    rw [hget] at hget'
    cases hget'
    rw [hmode] at happend
    cases happend

lemma Resolves.of_nil {σ : Type} {resolve : Payload → σ → Option Bytes × σ} {s s' : σ}
    {values : List ContentUpdate} {contents : List Bytes} (hvalues : values = [])
    (h : Resolves resolve values s contents s') : contents = [] ∧ s = s' := by
  cases h with
  | nil => exact ⟨rfl, rfl⟩
  | newest => simp at hvalues

lemma Resolves.singleton {σ : Type} {resolve : Payload → σ → Option Bytes × σ} {s s' : σ}
    {value : ContentUpdate} {contents : List Bytes} (h : Resolves resolve [value] s contents s') :
    ∃ bytes, contents = [bytes] ∧ resolve value.content s = (some bytes, s') := by
  generalize hvalues : [value] = values at h
  cases h with
  | nil => cases hvalues
  | newest hempty hresolve rest =>
    obtain ⟨hnil, hvalue⟩ := List.append_inj' (List.nil_append [value] |>.trans hvalues) rfl
    cases hvalue
    have hrest := rest.of_nil hnil.symm
    exact ⟨_, by rw [hrest.1]; rfl, by rw [hresolve, hrest.2]⟩

/-- The head that is selected is the only one, or the last of snapshots. -/
lemma selectHead_eq_some (hnodup : updates.keys.Nodup)
    (hacyclic : ∀ id, ¬ Relation.TransGen (Names updates) id id) {head : OpId}
    (h : updates.selectHead = .ok (some head)) :
    (updates.heads = [head]
        ∧ ∀ id ∈ updates.keys, Relation.ReflTransGen (Names updates) head id)
      ∨ (2 ≤ updates.heads.length ∧ Snapshots updates head) := by
  unfold selectHead at h
  split at h
  · split at h <;> cases h
  · next only honly =>
    cases h
    refine .inl ⟨honly, fun id hid => ?_⟩
    obtain ⟨above, habove, hpath⟩ := exists_head_above hnodup hacyclic hid
    rw [honly, List.mem_singleton] at habove
    subst habove
    exact hpath
  · next hnone hone =>
    split at h
    · next found hfound =>
      cases h
      refine .inr ⟨?_, snapshots_of_ordered hnodup hacyclic hfound⟩
      cases hheads : updates.heads with
      | nil => exact absurd hheads hnone
      | cons first rest =>
        cases rest with
        | nil => exact absurd hheads (hone first)
        | cons second rest => simp
    · cases h

/-- Without a cycle some update is a head. -/
lemma heads_ne_nil (hnodup : updates.keys.Nodup)
    (hacyclic : ∀ id, ¬ Relation.TransGen (Names updates) id id) (hsome : updates.keys ≠ []) :
    updates.heads ≠ [] := by
  intro hnone
  obtain ⟨id, hid⟩ := List.exists_mem_of_ne_nil _ hsome
  obtain ⟨head, hhead, -⟩ := exists_head_above hnodup hacyclic hid
  rw [hnone] at hhead
  cases hhead

end Updates

namespace StreamState

/-! ## The updates of a block -/

variable {delivered : Operation → Prop} {state : StreamState}

/-- The records of an item are under their own identities, each once. -/
lemma Reflects.recordsOf_ids (h : Reflects delivered state) (item : ItemId) :
    ((state.recordsOf item).map Operation.id).Sublist ((state.items item).sort idLe) := by
  unfold recordsOf
  generalize (state.items item).sort idLe = ids
  induction ids with
  | nil => exact List.Sublist.refl _
  | cons id ids ih =>
    cases hrecord : state.records id with
    | none =>
      rw [List.filterMap_cons_none hrecord]
      exact ih.cons id
    | some record =>
      rw [List.filterMap_cons_some hrecord, List.map_cons, ((h.records id record).mp hrecord).2.1]
      exact ih.cons_cons id

lemma Reflects.keys_nodup (h : Reflects delivered state) (item block : ItemId)
    (attempt : Option ItemId) : (state.updates item block attempt).keys.Nodup := by
  have hids : ((state.recordsOf item).map Operation.id).Nodup :=
    (h.recordsOf_ids item).nodup (Finset.sort_nodup _ _)
  refine List.Sublist.nodup ?_ hids
  unfold updates Updates.keys
  rw [List.map_filterMap]
  generalize state.recordsOf item = records
  induction records with
  | nil => exact List.Sublist.refl _
  | cons record records ih =>
    cases hupdate : update record block attempt with
    | none =>
      rw [List.filterMap_cons_none (by simp [hupdate]), List.map_cons]
      exact ih.cons _
    | some value =>
      rw [List.filterMap_cons_some (b := record.id) (by simp [hupdate]), List.map_cons]
      exact ih.cons_cons _

/-- An update of a block is what a record that is not inert does to it. -/
lemma Reflects.get_updates (h : Reflects delivered state) {item block : ItemId}
    {attempt : Option ItemId} {id : OpId} {record : Operation} {value : ContentUpdate} :
    (state.updates item block attempt).get id = some (record, value)
      ↔ state.records id = some record ∧ record.item = item
        ∧ update record block attempt = some value := by
  have hrecords : record ∈ state.recordsOf item
      ↔ state.records record.id = some record ∧ record.item = item := by
    unfold recordsOf
    rw [List.mem_filterMap]
    constructor
    · intro hfound
      obtain ⟨other, hother, hrecord⟩ := hfound
      have hid := ((h.records other record).mp hrecord).2.1
      subst hid
      rw [Finset.mem_sort] at hother
      exact ⟨hrecord, (h.items item _ record hrecord).mp hother⟩
    · intro hfound
      obtain ⟨hrecord, hitem⟩ := hfound
      refine ⟨record.id, ?_, hrecord⟩
      rw [Finset.mem_sort]
      exact (h.items item _ record hrecord).mpr hitem
  constructor
  · intro hget
    have hmem := Updates.mem_of_get hget
    unfold updates at hmem
    obtain ⟨other, hother, hentry⟩ := List.mem_filterMap.mp hmem
    obtain ⟨found, hupdate, hentry⟩ := Option.map_eq_some_iff.mp hentry
    cases hentry
    obtain ⟨hrecord, hitem⟩ := hrecords.mp hother
    exact ⟨hrecord, hitem, hupdate⟩
  · intro hfound
    obtain ⟨hrecord, hitem, hupdate⟩ := hfound
    have hid := ((h.records id record).mp hrecord).2.1
    subst hid
    apply Updates.get_of_mem (h.keys_nodup item block attempt)
    unfold updates
    exact List.mem_filterMap.mpr ⟨record, hrecords.mpr ⟨hrecord, hitem⟩, by rw [hupdate]; rfl⟩

/-- What a call with content went through. -/
lemma content_eq_found {σ : Type} {item block : ItemId} {attempt : Option ItemId}
    {resolve : Payload → σ → Option Bytes × σ} {s s' : σ} {found : ContentBlock}
    (h : state.content item block attempt resolve s = some (.ok (some found), s')) :
    (state.updates item block attempt).validatePredecessors state.conflicts state.records = .ok ()
    ∧ (state.updates item block attempt).selectHead = .ok (some found.head)
    ∧ ∃ contents, (state.updates item block attempt).parts resolve ∅ (some found.head) s
        = some (.ok (contents, found.complete), s') ∧ found.bytes = contents.flatten := by
  unfold content at h
  split at h
  · cases h
  · dsimp only at h
    split at h
    · cases h
    · next hvalid =>
      split at h
      · cases h
      · cases h
      · next head hhead =>
        split at h
        · cases h
        · cases h
        · next contents complete s'' hparts =>
          cases h
          exact ⟨hvalid, hhead, contents, hparts, rfl⟩

variable [AddressHash]

/-- Replayed content is the linked history. For every state that deliveries reach, and for every
item, block, attempt and resolver, the call returns, and some update of a block whose predecessors
are validated is a head. The updates are what the records of the item do to the block. Where the
call returns content, the links of the block run into no cycle and name no known operation outside
it. Either there is one head, every update is on the chain of its predecessors, and the bytes are
the resolved contents of the history at the head; or there are several, every update is a snapshot
of one recorder, and the bytes are those of the one with the greatest sequence. -/
theorem content_is_linked_history (operations : List Operation) {σ : Type}
    (resolve : Payload → σ → Option Bytes × σ) (s : σ) (item block : ItemId)
    (attempt : Option ItemId) :
    ((deliver {} operations).content item block attempt resolve s).isSome
    ∧ (((deliver {} operations).updates item block attempt).validatePredecessors
          (deliver {} operations).conflicts (deliver {} operations).records = .ok () →
        ((deliver {} operations).updates item block attempt).keys ≠ [] →
        ((deliver {} operations).updates item block attempt).heads ≠ [])
    ∧ (∀ id record value,
        ((deliver {} operations).updates item block attempt).get id = some (record, value)
          ↔ (deliver {} operations).records id = some record ∧ record.item = item
            ∧ update record block attempt = some value)
    ∧ ∀ found s', (deliver {} operations).content item block attempt resolve s
          = some (.ok (some found), s') →
      let updates := (deliver {} operations).updates item block attempt
      (∀ id, ¬ Relation.TransGen updates.Names id id)
      ∧ (∀ id other, updates.Names id other → other ∉ (deliver {} operations).conflicts
        ∧ (updates.get other = none → (deliver {} operations).records other = none))
      ∧ ((updates.heads = [found.head]
          ∧ (∀ id ∈ updates.keys, Relation.ReflTransGen updates.Names found.head id)
          ∧ ∃ values contents, updates.History (some found.head) values found.complete
            ∧ Updates.Resolves resolve values s contents s' ∧ found.bytes = contents.flatten)
        ∨ (2 ≤ updates.heads.length ∧ updates.Snapshots found.head ∧ found.complete = true
          ∧ ∃ record value, updates.get found.head = some (record, value)
            ∧ resolve value.content s = (some found.bytes, s'))) := by
  have hreflects := reflects_deliver operations
  generalize deliver {} operations = state at *
  have hnodup := hreflects.keys_nodup item block attempt
  have hacyclic : ∀ {conflicts records}, (state.updates item block attempt).validatePredecessors
      conflicts records = .ok () →
      ∀ id, ¬ Relation.TransGen (state.updates item block attempt).Names id id :=
    fun hvalid id => (Updates.settles_of_validate hvalid id).not_back
  refine ⟨content_isSome state item block attempt resolve s, ?_,
    fun _ _ _ => hreflects.get_updates, ?_⟩
  · intro hvalid hsome
    exact Updates.heads_ne_nil hnodup (hacyclic hvalid) hsome
  · intro found s' hfound
    obtain ⟨hvalid, hhead, contents, hparts, hbytes⟩ := content_eq_found hfound
    obtain ⟨values, hhistory, hresolves⟩ := Updates.parts_eq_some hparts
    refine ⟨hacyclic hvalid, fun id other hnames => Updates.sane_of_validate hvalid hnames, ?_⟩
    rcases Updates.selectHead_eq_some hnodup (hacyclic hvalid) hhead with
      ⟨hone, hchain⟩ | ⟨hseveral, hsnapshots⟩
    · exact .inl ⟨hone, hchain, values, contents, hhistory, hresolves, hbytes⟩
    · refine .inr ⟨hseveral, hsnapshots, ?_⟩
      obtain ⟨record, value, sequence, hget, -⟩ := hsnapshots.greatest
      -- A snapshot is its own history.
      have hmode := (hsnapshots.whole _ _ _ hget).1
      obtain ⟨rfl, hcomplete⟩ := hhistory.of_replace hget hmode
      obtain ⟨bytes, rfl, hresolve⟩ := hresolves.singleton
      rw [List.flatten_singleton] at hbytes
      exact ⟨hcomplete, record, value, hget, by rw [hbytes]; exact hresolve⟩

end StreamState

/-! ## Two records of one block -/

section Parts

local instance partAddresses : AddressHash := ⟨fun _ => 0⟩

/-- A message and its block. -/
def partItem : ItemId := ⟨5⟩
def partBlock : ItemId := ⟨6⟩

/-- An update of the block. -/
def partUpdate (mode : UpdateMode) (previous : Option OpId) (bytes : Bytes) : ContentUpdate :=
  ⟨partBlock, none, mode, previous, .empty, .inline bytes⟩

/-- A record of one update. -/
def part (id : OpId) (sequence : UInt64) (update : ContentUpdate) : Operation :=
  ⟨id, partItem, none, ⟨8⟩, none, none, none, some sequence, [], [], none, none,
    .message ⟨.text, .updated, [], [update], none, none⟩⟩

/-- The first of two records replaces the block, and the second, which is delivered before it, goes
on as it says. -/
def twoParts (update : ContentUpdate) : StreamState :=
  .deliver {} [part 2 1 update, part 1 0 (partUpdate .replace none [97])]

/-- The bytes of a payload that carries them. -/
def inlineBytes (payload : Payload) (_ : Unit) : Option Bytes × Unit :=
  (match payload with
    | .inline bytes => some bytes
    | _ => none, ())

/-- What the two records leave. -/
lemma updates_twoParts {update : ContentUpdate}
    (h : update = partUpdate .append (some 1) [98] ∨ update = partUpdate .replace none [98]) :
    (twoParts update).quarantined (partItem, none) = ∅ ∧ (twoParts update).conflicts = ∅
      ∧ (twoParts update).recordsOf partItem
        = [part 1 0 (partUpdate .replace none [97]), part 2 1 update]
      ∧ (twoParts update).updates partItem partBlock none
        = [(1, part 1 0 (partUpdate .replace none [97]), partUpdate .replace none [97]),
          (2, part 2 1 update, update)] := by
  have hrecords : (twoParts update).recordsOf partItem
      = [part 1 0 (partUpdate .replace none [97]), part 2 1 update] := by
    have hitems : (twoParts update).items partItem = {1, 2} := by
      rcases h with rfl | rfl <;> decide +kernel
    have hsort : ({1, 2} : Finset OpId).sort idLe = [1, 2] := by
      rw [Finset.sort_insert] <;> simp [idLe]
    unfold StreamState.recordsOf
    rw [hitems, hsort]
    rcases h with rfl | rfl <;> decide +kernel
  refine ⟨?_, ?_, hrecords, ?_⟩
  · rcases h with rfl | rfl <;> decide +kernel
  · rcases h with rfl | rfl <;> decide +kernel
  · unfold StreamState.updates
    rw [hrecords]
    rcases h with rfl | rfl <;> decide +kernel

lemma walk_of_get {conflicts done path : Finset OpId} {records : OpId → Option Operation}
    {updates : Updates} {id : OpId} {record : Operation} {value : ContentUpdate}
    (hget : updates.get id = some (record, value)) (hconflict : id ∉ conflicts)
    (hdone : id ∉ done) (hnew : id ∉ path) :
    updates.walk conflicts records done path (some id)
      = updates.walk conflicts records done (Insert.insert id path) value.previous := by
  rw [Updates.walk, if_neg hconflict, if_neg hdone]
  split
  · next h => simp [hget] at h
  · next h =>
    cases hget.symm.trans h
    exact dif_neg hnew

lemma parts_of_get {updates : Updates} {id : OpId} {record : Operation} {mode : UpdateMode}
    {previous : Option OpId} {bytes : Bytes} {seen : Finset OpId}
    (hget : updates.get id = some (record, partUpdate mode previous bytes)) (hnew : id ∉ seen) :
    (mode = .replace →
        updates.parts inlineBytes seen (some id) () = some (.ok ([bytes], true), ()))
      ∧ ∀ older complete, mode = .append →
        updates.parts inlineBytes (Insert.insert id seen) previous ()
          = some (.ok (older, complete), ()) →
        updates.parts inlineBytes seen (some id) ()
          = some (.ok (older ++ [bytes], complete), ()) := by
  rw [Updates.parts]
  split
  · next h => simp [hget] at h
  · next h =>
    cases hget.symm.trans h
    have hcontent : (partUpdate mode previous bytes).content ≠ .empty := by simp [partUpdate]
    rw [dif_neg hnew, if_neg hcontent]
    refine ⟨?_, ?_⟩
    · rintro rfl
      rfl
    · rintro older complete rfl holder
      simp [partUpdate, inlineBytes] at holder ⊢
      rw [holder]

lemma validate_pair {updates : Updates} {records : OpId → Option Operation}
    {record record' : Operation} {value value' : ContentUpdate} (hkeys : updates.keys = [1, 2])
    (hget : updates.get 1 = some (record, value)) (hget' : updates.get 2 = some (record', value'))
    (hfirst : value.previous = none) (hsecond : value'.previous = none ∨ value'.previous = some 1) :
    updates.validatePredecessors ∅ records = .ok () := by
  have hone : updates.walk ∅ records ∅ ∅ (some 1) = .ok {1} := by
    rw [walk_of_get hget (Finset.notMem_empty _) (Finset.notMem_empty _) (Finset.notMem_empty _),
      hfirst, Updates.walk]
    rfl
  have htwo : updates.walk ∅ records {1} ∅ (some 2) = .ok {2} := by
    rw [walk_of_get hget' (Finset.notMem_empty _) (by decide) (Finset.notMem_empty _)]
    rcases hsecond with hsecond | hsecond
    · rw [hsecond, Updates.walk]
      rfl
    · rw [hsecond, Updates.walk, if_neg (Finset.notMem_empty _), if_pos (by decide)]
      rfl
  unfold Updates.validatePredecessors
  rw [hkeys]
  simp only [Updates.validateFrom, hone]
  show (do
    let path ← updates.walk ∅ records {1} ∅ (some 2)
    Except.ok ()) = _
  rw [htwo]
  rfl

/-- An append goes on from the update that it names, though it arrives first. -/
example :
    (twoParts (partUpdate .append (some 1) [98])).content partItem partBlock none inlineBytes ()
      = some (.ok (some ⟨[97, 98], true, false, 2⟩), ()) := by
  obtain ⟨hquarantined, hconflicts, hrecords, hupdates⟩ := updates_twoParts (.inl rfl)
  have hkeys := congrArg Updates.keys hupdates
  have hget := congrArg (Updates.get · 1) hupdates
  have hget' := congrArg (Updates.get · 2) hupdates
  have hheads := congrArg Updates.selectHead hupdates
  change _ = Except.ok (some 2) at hheads
  have hparts := (parts_of_get hget' (Finset.notMem_empty 2)).2 _ _ rfl
    ((parts_of_get hget (by decide)).1 rfl)
  simp only [StreamState.content, hquarantined, hconflicts, hrecords, hheads, hparts,
    validate_pair hkeys hget hget' rfl (.inr rfl)]
  rw [Finset.sort_empty]
  rfl

/-- Of two snapshots of one recorder the one with the greater sequence counts. -/
example :
    (twoParts (partUpdate .replace none [98])).content partItem partBlock none inlineBytes ()
      = some (.ok (some ⟨[98], true, false, 2⟩), ()) := by
  obtain ⟨hquarantined, hconflicts, hrecords, hupdates⟩ := updates_twoParts (.inr rfl)
  have hkeys := congrArg Updates.keys hupdates
  have hget := congrArg (Updates.get · 1) hupdates
  have hget' := congrArg (Updates.get · 2) hupdates
  have hheads := congrArg Updates.selectHead hupdates
  change _ = Except.ok (some 2) at hheads
  have hparts := (parts_of_get hget' (Finset.notMem_empty 2)).1 rfl
  simp only [StreamState.content, hquarantined, hconflicts, hrecords, hheads, hparts,
    validate_pair hkeys hget hget' rfl (.inl rfl)]
  rw [Finset.sort_empty]
  rfl

end Parts

end EditChain.Activity
