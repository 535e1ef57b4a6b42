import EditChain.Activity.Replay
import EditChain.Lib.Fallible

/-!
# Replay does not depend on arrival

What a stream state keeps is a function of the set of valid operations that were delivered: the
identities with one variant have a record, those with several are in conflict, and every item and
attempt that a variant of these names is quarantined. The index of items alone remembers which
variant came first, and only under identities that have no record any more.
-/

namespace EditChain.Activity

open Migration (AddressHash)
open Fallible

namespace Updates

/-! ## Chains of predecessors -/

/-- Going from predecessor to predecessor comes to an end. -/
inductive Settles (updates : Updates) : OpId → Prop where
  | outside {id : OpId} (h : updates.get id = none) : Settles updates id
  | inside {id : OpId} {record : Operation} {value : ContentUpdate}
      (h : updates.get id = some (record, value))
      (previous : ∀ other, value.previous = some other → Settles updates other) :
      Settles updates id

variable {conflicts : Finset OpId} {records : OpId → Option Operation} {updates : Updates}

/-- A walk that ends well: the updates it adds to its path come to an end, and so does where it
starts. -/
lemma walk_eq_ok {done path path' : Finset OpId} {cursor : Option OpId}
    (hdone : ∀ id ∈ done, Settles updates id)
    (h : walk conflicts records updates done path cursor = .ok path') :
    (∀ id, cursor = some id → Settles updates id)
      ∧ ∀ id ∈ path', id ∈ path ∨ Settles updates id := by
  fun_induction walk conflicts records updates done path cursor with
  | case1 path =>
    cases h
    refine ⟨?_, fun _ => .inl⟩
    rintro _ ⟨⟩
  | case2 => cases h
  | case3 path id hconflict hmem =>
    cases h
    refine ⟨?_, fun _ => .inl⟩
    rintro _ ⟨⟩
    exact hdone id hmem
  | case4 => cases h
  | case5 path id hconflict hmem hget hrecord =>
    cases h
    refine ⟨?_, fun _ => .inl⟩
    rintro _ ⟨⟩
    exact .outside hget
  | case6 => cases h
  | case7 path id hconflict hmem record value hget hnew ih =>
    obtain ⟨hprevious, hpath⟩ := ih h
    have hid : Settles updates id := .inside hget hprevious
    refine ⟨?_, fun other hother => ?_⟩
    · rintro _ ⟨⟩
      exact hid
    · rcases hpath other hother with hother | hother
      · rcases Finset.mem_insert.mp hother with rfl | hother
        · exact .inr hid
        · exact .inl hother
      · exact .inr hother

lemma validateFrom_eq_ok {done : Finset OpId} {starts : List OpId}
    (hdone : ∀ id ∈ done, Settles updates id)
    (h : validateFrom conflicts records updates done starts = .ok ()) :
    ∀ id ∈ starts, Settles updates id := by
  induction starts generalizing done with
  | nil => simp
  | cons start starts ih =>
    rw [validateFrom] at h
    obtain ⟨path, hwalk, h⟩ := bind_eq_ok.mp h
    obtain ⟨hstart, hpath⟩ := walk_eq_ok hdone hwalk
    have hrest := ih (fun id hid => by
      rcases Finset.mem_union.mp hid with hid | hid
      · exact hdone id hid
      · rcases hpath id hid with hempty | hsettles
        · cases hempty
        · exact hsettles) h
    intro id hid
    rcases List.mem_cons.mp hid with rfl | hid
    · exact hstart id rfl
    · exact hrest id hid

/-- Where validation succeeds, every chain of predecessors comes to an end. -/
lemma settles_of_validate (h : validatePredecessors conflicts records updates = .ok ())
    (id : OpId) : Settles updates id := by
  cases hget : updates.get id with
  | none => exact .outside hget
  | some found => exact validateFrom_eq_ok (by simp) h id (mem_keys_of_get hget)

/-- An update and the one it names as its predecessor. -/
def Names (updates : Updates) (id other : OpId) : Prop :=
  ∃ record value, updates.get id = some (record, value) ∧ value.previous = some other

/-- A chain that comes to an end never comes back. -/
lemma Settles.not_back {id : OpId} (h : Settles updates id) :
    ¬ Relation.TransGen (Names updates) id id := by
  induction h with
  | outside hget =>
    intro hback
    obtain ⟨other, hnames, -⟩ := Relation.TransGen.head'_iff.mp hback
    obtain ⟨record, value, hsome, -⟩ := hnames
    rw [hget] at hsome
    cases hsome
  | @inside id record value hget previous ih =>
    intro hback
    obtain ⟨other, hnames, hrest⟩ := Relation.TransGen.head'_iff.mp hback
    have hother : value.previous = some other := by
      obtain ⟨record', value', hsome, hvalue⟩ := hnames
      rw [hget] at hsome
      cases hsome
      exact hvalue
    -- Where the chain goes on it would come back as well.
    exact ih other hother (Relation.TransGen.tail' hrest hnames)

/-- Collecting the parts of a chain that comes to an end returns. -/
lemma parts_isSome {σ : Type} (resolve : Payload → σ → Option Bytes × σ) (s : σ)
    {seen : Finset OpId} {cursor : Option OpId} (hsettles : ∀ id, cursor = some id → Settles updates id)
    (hseen : ∀ id, cursor = some id → ∀ other ∈ seen, Relation.TransGen (Names updates) other id) :
    (parts resolve updates seen cursor s).isSome := by
  fun_induction parts resolve updates seen cursor s with
  | case1 => rfl
  | case2 => rfl
  | case3 seen s id record value hget hmem =>
    exact absurd (hseen id rfl id hmem) (hsettles id rfl).not_back
  | case4 => rfl
  | case5 => rfl
  | case6 => rfl
  | case7 => rfl
  | case8 => rfl
  | case9 seen s id record value hget hnew hempty bytes s' hresolve hmode hnone ih =>
    rw [hnone] at ih
    apply ih
    · intro other hother
      cases hsettles id rfl with
      | outside hget' => rw [hget] at hget'; cases hget'
      | inside hget' previous =>
        rw [hget] at hget'
        cases hget'
        exact previous other hother
    · intro other hother earlier hearlier
      have hnames : Names updates id other := ⟨record, value, hget, hother⟩
      rcases Finset.mem_insert.mp hearlier with rfl | hearlier
      · exact .single hnames
      · exact .tail (hseen id rfl earlier hearlier) hnames

end Updates

namespace StreamState

/-! ## What a state keeps -/

/-- The state after the delivery of some valid operations, in whatever order. -/
structure Reflects (delivered : Operation → Prop) (state : StreamState) : Prop where
  records : ∀ id operation, state.records id = some operation ↔
    delivered operation ∧ operation.id = id
      ∧ ∀ other, delivered other → other.id = id → other = operation
  conflicts : ∀ id, id ∈ state.conflicts ↔
    ∃ a b, delivered a ∧ delivered b ∧ a.id = id ∧ b.id = id ∧ a ≠ b
  quarantined : ∀ key id, id ∈ state.quarantined key ↔
    id ∈ state.conflicts ∧ ∃ operation, delivered operation ∧ operation.id = id
      ∧ operation.streamKey = key
  items : ∀ item id operation, state.records id = some operation →
    (id ∈ state.items item ↔ operation.item = item)
  listed : ∀ item id, id ∈ state.items item → ∃ operation, delivered operation ∧ operation.id = id

variable {delivered : Operation → Prop} {state : StreamState} {operation : Operation}

lemma reflects_empty : Reflects (fun _ => False) {} where
  records := by simp
  conflicts := by simp
  quarantined := by simp
  items := by simp
  listed := by simp

lemma mem_quarantine (state : StreamState) (record : Operation) (key : ItemId × Option ItemId)
    (id : OpId) : id ∈ (state.quarantine record).quarantined key
      ↔ (record.streamKey = key ∧ record.id = id) ∨ id ∈ state.quarantined key := by
  unfold quarantine
  by_cases hkey : key = record.streamKey
  · subst hkey
    simp [eq_comm]
  · simp [hkey, Ne.symm hkey]

/-- An identity without a record and without a conflict was not delivered. -/
lemma Reflects.not_delivered (h : Reflects delivered state) {id : OpId}
    (hconflict : id ∉ state.conflicts) (hnone : state.records id = none) (operation : Operation)
    (hdelivered : delivered operation) : operation.id ≠ id := by
  rintro rfl
  have hrecord : state.records operation.id = some operation := by
    rw [h.records]
    refine ⟨hdelivered, rfl, fun other hother hid => ?_⟩
    by_contra hne
    exact hconflict ((h.conflicts _).mpr ⟨other, operation, hother, hdelivered, hid, rfl, hne⟩)
  rw [hnone] at hrecord
  cases hrecord

/-- A variant of an identity that is in conflict. -/
lemma Reflects.again (h : Reflects delivered state) (hconflict : operation.id ∈ state.conflicts) :
    Reflects (fun other => delivered other ∨ other = operation) (state.quarantine operation) := by
  obtain ⟨a, b, ha, hb, hida, hidb, hne⟩ := (h.conflicts _).mp hconflict
  have hconflicts : ∀ id, id ∈ state.conflicts ↔ ∃ a b, (delivered a ∨ a = operation)
      ∧ (delivered b ∨ b = operation) ∧ a.id = id ∧ b.id = id ∧ a ≠ b := by
    intro id
    rw [h.conflicts]
    constructor
    · rintro ⟨a, b, ha, hb, rest⟩
      exact ⟨a, b, .inl ha, .inl hb, rest⟩
    · rintro ⟨a', b', ha' | rfl, hb' | rfl, hida', hidb', hne'⟩
      · exact ⟨a', b', ha', hb', hida', hidb', hne'⟩
      · exact ⟨a, b, ha, hb, hida.trans hidb', hidb.trans hidb', hne⟩
      · exact ⟨a, b, ha, hb, hida.trans hida', hidb.trans hida', hne⟩
      · exact absurd rfl hne'
  refine ⟨?_, hconflicts, ?_, h.items, ?_⟩
  · intro id record
    show state.records id = some record ↔ _
    rw [h.records]
    constructor
    · rintro ⟨hrecord, hid, hall⟩
      refine ⟨.inl hrecord, hid, ?_⟩
      rintro other (hother | rfl) hother'
      · exact hall other hother hother'
      · have haa := hall a ha (hida.trans hother')
        have hbb := hall b hb (hidb.trans hother')
        exact absurd (haa.trans hbb.symm) hne
    · rintro ⟨hrecord, hid, hall⟩
      rcases hrecord with hrecord | rfl
      · exact ⟨hrecord, hid, fun other hother => hall other (.inl hother)⟩
      · have haa := hall a (.inl ha) (hida.trans hid)
        have hbb := hall b (.inl hb) (hidb.trans hid)
        exact absurd (haa.trans hbb.symm) hne
  · intro key id
    show id ∈ (state.quarantine operation).quarantined key ↔ id ∈ state.conflicts ∧ _
    rw [mem_quarantine, h.quarantined]
    constructor
    · rintro (⟨hkey, rfl⟩ | ⟨hid, record, hrecord, rest⟩)
      · exact ⟨hconflict, operation, .inr rfl, rfl, hkey⟩
      · exact ⟨hid, record, .inl hrecord, rest⟩
    · rintro ⟨hid, record, hrecord | rfl, hrid, hkey⟩
      · exact .inr ⟨hid, record, hrecord, hrid, hkey⟩
      · exact .inl ⟨hkey, hrid⟩
  · intro item id hid
    obtain ⟨record, hrecord, hrid⟩ := h.listed item id hid
    exact ⟨record, .inl hrecord, hrid⟩

/-- The second variant of an identity: its record goes, and both variants are quarantined. -/
lemma Reflects.second (h : Reflects delivered state) {existing : Operation}
    (hrecord : state.records operation.id = some existing) (hne : existing ≠ operation) :
    Reflects (fun other => delivered other ∨ other = operation)
      { ((({ state with records := Function.update state.records operation.id none } :
            StreamState).quarantine existing).quarantine operation) with
        conflicts := Insert.insert operation.id state.conflicts } := by
  obtain ⟨hexisting, hid, hall⟩ := (h.records _ _).mp hrecord
  have hconflicts : ∀ id, id ∈ Insert.insert operation.id state.conflicts
      ↔ ∃ a b, (delivered a ∨ a = operation) ∧ (delivered b ∨ b = operation) ∧ a.id = id
        ∧ b.id = id ∧ a ≠ b := by
    intro id
    rw [Finset.mem_insert, h.conflicts]
    constructor
    · rintro (rfl | ⟨a, b, ha, hb, rest⟩)
      · exact ⟨existing, operation, .inl hexisting, .inr rfl, hid, rfl, hne⟩
      · exact ⟨a, b, .inl ha, .inl hb, rest⟩
    · rintro ⟨a, b, ha | rfl, hb | rfl, hida, hidb, hab⟩
      · exact .inr ⟨a, b, ha, hb, hida, hidb, hab⟩
      · exact .inl hidb.symm
      · exact .inl hida.symm
      · exact absurd rfl hab
  refine ⟨?_, hconflicts, ?_, ?_, ?_⟩
  · intro id record
    show Function.update state.records operation.id none id = some record ↔ _
    by_cases hsame : id = operation.id
    · subst hsame
      rw [Function.update_self]
      constructor
      · intro hfound
        cases hfound
      · rintro ⟨-, -, hunique⟩
        have hone := hunique existing (.inl hexisting) hid
        have htwo := hunique operation (.inr rfl) rfl
        exact absurd (hone.trans htwo.symm) hne
    · rw [Function.update_of_ne hsame, h.records]
      constructor
      · rintro ⟨hrecord', hid', hunique⟩
        refine ⟨.inl hrecord', hid', ?_⟩
        rintro other (hother | rfl) hother'
        · exact hunique other hother hother'
        · exact absurd hother'.symm hsame
      · rintro ⟨hrecord' | rfl, hid', hunique⟩
        · exact ⟨hrecord', hid', fun other hother => hunique other (.inl hother)⟩
        · exact absurd hid'.symm hsame
  · intro key id
    show id ∈ (quarantine _ operation).quarantined key ↔ id ∈ Insert.insert _ _ ∧ _
    rw [mem_quarantine, mem_quarantine]
    show (_ ∨ _ ∨ id ∈ state.quarantined key) ↔ _
    rw [h.quarantined, Finset.mem_insert]
    constructor
    · rintro (⟨hkey, rfl⟩ | ⟨hkey, rfl⟩ | ⟨hid', record, hrecord', rest⟩)
      · exact ⟨.inl rfl, operation, .inr rfl, rfl, hkey⟩
      · exact ⟨.inl hid, existing, .inl hexisting, rfl, hkey⟩
      · exact ⟨.inr hid', record, .inl hrecord', rest⟩
    · rintro ⟨hid', record, hrecord' | rfl, hrid, hkey⟩
      · by_cases hsame : id = operation.id
        · -- All that was delivered under this identity is the record that goes.
          have hone := hall record hrecord' (hrid.trans hsame)
          subst hone
          exact .inr (.inl ⟨hkey, hrid⟩)
        · exact .inr (.inr ⟨hid'.resolve_left hsame, record, hrecord', hrid, hkey⟩)
      · exact .inl ⟨hkey, hrid⟩
  · intro item id record hfound
    change Function.update state.records operation.id none id = some record at hfound
    by_cases hsame : id = operation.id
    · subst hsame
      rw [Function.update_self] at hfound
      cases hfound
    · rw [Function.update_of_ne hsame] at hfound
      exact h.items item id record hfound
  · intro item id hid'
    obtain ⟨record, hrecord', hrid⟩ := h.listed item id hid'
    exact ⟨record, .inl hrecord', hrid⟩

/-- The first variant of an identity. -/
lemma Reflects.first (h : Reflects delivered state) (hconflict : operation.id ∉ state.conflicts)
    (hnone : state.records operation.id = none) :
    Reflects (fun other => delivered other ∨ other = operation)
      { state with
        items := Function.update state.items operation.item
          (Insert.insert operation.id (state.items operation.item))
        records := Function.update state.records operation.id (some operation) } := by
  have hnew := h.not_delivered hconflict hnone
  refine ⟨?_, ?_, ?_, ?_, ?_⟩
  · intro id record
    show Function.update state.records operation.id (some operation) id = some record ↔ _
    by_cases hsame : id = operation.id
    · subst hsame
      rw [Function.update_self]
      constructor
      · rintro hfound
        cases hfound
        refine ⟨.inr rfl, rfl, ?_⟩
        rintro other (hother | rfl) hid
        · exact absurd hid (hnew other hother)
        · rfl
      · rintro ⟨hrecord | rfl, hid, -⟩
        · exact absurd hid (hnew record hrecord)
        · rfl
    · rw [Function.update_of_ne hsame, h.records]
      constructor
      · rintro ⟨hrecord, hid, hunique⟩
        refine ⟨.inl hrecord, hid, ?_⟩
        rintro other (hother | rfl) hother'
        · exact hunique other hother hother'
        · exact absurd hother'.symm hsame
      · rintro ⟨hrecord | rfl, hid, hunique⟩
        · exact ⟨hrecord, hid, fun other hother => hunique other (.inl hother)⟩
        · exact absurd hid.symm hsame
  · intro id
    show id ∈ state.conflicts ↔ _
    rw [h.conflicts]
    constructor
    · rintro ⟨a, b, ha, hb, rest⟩
      exact ⟨a, b, .inl ha, .inl hb, rest⟩
    · rintro ⟨a, b, ha | rfl, hb | rfl, hida, hidb, hab⟩
      · exact ⟨a, b, ha, hb, hida, hidb, hab⟩
      · exact absurd (hida.trans hidb.symm) (hnew a ha)
      · exact absurd (hidb.trans hida.symm) (hnew b hb)
      · exact absurd rfl hab
  · intro key id
    show id ∈ state.quarantined key ↔ id ∈ state.conflicts ∧ _
    rw [h.quarantined]
    refine and_congr_right fun hid => ?_
    constructor
    · rintro ⟨record, hrecord, rest⟩
      exact ⟨record, .inl hrecord, rest⟩
    · rintro ⟨record, hrecord | rfl, hrid, hkey⟩
      · exact ⟨record, hrecord, hrid, hkey⟩
      · rw [← hrid] at hid
        exact absurd hid hconflict
  · intro item id record hfound
    change Function.update state.records operation.id (some operation) id = some record at hfound
    show id ∈ Function.update state.items operation.item _ item ↔ record.item = item
    by_cases hsame : id = operation.id
    · subst hsame
      rw [Function.update_self] at hfound
      cases hfound
      by_cases hitem : item = operation.item
      · subst hitem
        simp
      · rw [Function.update_of_ne hitem]
        refine iff_of_false (fun hlisted => ?_) (Ne.symm hitem)
        obtain ⟨other, hother, hid⟩ := h.listed item _ hlisted
        exact hnew other hother hid
    · rw [Function.update_of_ne hsame] at hfound
      have hold := h.items item id record hfound
      by_cases hitem : item = operation.item
      · subst hitem
        simp [hsame, hold]
      · simp [hitem, hold]
  · intro item id hid
    change id ∈ Function.update state.items operation.item _ item at hid
    by_cases hitem : item = operation.item
    · subst hitem
      rw [Function.update_self, Finset.mem_insert] at hid
      rcases hid with rfl | hid
      · exact ⟨operation, .inr rfl, rfl⟩
      · obtain ⟨record, hrecord, hrid⟩ := h.listed _ id hid
        exact ⟨record, .inl hrecord, hrid⟩
    · rw [Function.update_of_ne hitem] at hid
      obtain ⟨record, hrecord, hrid⟩ := h.listed item id hid
      exact ⟨record, .inl hrecord, hrid⟩

/-! ## Delivery -/

section

variable [AddressHash]

/-- An invalid operation changes nothing. -/
lemma insert_of_invalid (state : StreamState) {error : ValidationError}
    (hinvalid : operation.validate = .error error) :
    state.insert operation = (.error (.invalid error), state) := by
  unfold insert
  rw [hinvalid]

/-- A valid operation is from then on among those delivered. -/
lemma Reflects.insert (h : Reflects delivered state) (hvalid : operation.validate = .ok ()) :
    Reflects (fun other => delivered other ∨ other = operation) (state.insert operation).2 := by
  unfold StreamState.insert
  rw [hvalid]
  dsimp only
  split
  · next hconflict => exact h.again hconflict
  · next hconflict =>
    split
    · next existing hrecord =>
      split
      · next hsame =>
        subst hsame
        have hdelivered := ((h.records _ _).mp hrecord).1
        have hiff : (fun other => delivered other ∨ other = existing) = delivered := by
          funext other
          apply propext
          constructor
          · rintro (hother | rfl)
            · exact hother
            · exact hdelivered
          · exact .inl
        rw [hiff]
        exact h
      · next hne => exact h.second hrecord hne
    · next hnone => exact h.first hconflict hnone

/-- Deliveries are seen only as the set of the valid ones. -/
lemma Reflects.deliver (h : Reflects delivered state) (operations : List Operation) :
    Reflects (fun operation => delivered operation
      ∨ (operation ∈ operations ∧ operation.validate = .ok ())) (state.deliver operations) := by
  induction operations generalizing delivered state with
  | nil => simpa [StreamState.deliver] using h
  | cons first operations ih =>
    show Reflects _ ((state.insert first).2.deliver operations)
    cases hvalid : first.validate with
    | error error =>
      rw [insert_of_invalid state hvalid]
      have hrest := ih h
      have hiff : (fun operation => delivered operation
          ∨ (operation ∈ operations ∧ operation.validate = .ok ()))
          = fun operation => delivered operation
            ∨ (operation ∈ first :: operations ∧ operation.validate = .ok ()) := by
        funext operation
        apply propext
        rw [List.mem_cons, or_and_right]
        have hnot : ¬ (operation = first ∧ operation.validate = .ok ()) := by
          rintro ⟨rfl, hok⟩
          rw [hvalid] at hok
          cases hok
        simp only [hnot, false_or]
      rw [hiff] at hrest
      exact hrest
    | ok _ =>
      have hrest := ih (h.insert hvalid)
      have hiff : (fun operation => (delivered operation ∨ operation = first)
          ∨ (operation ∈ operations ∧ operation.validate = .ok ()))
          = fun operation => delivered operation
            ∨ (operation ∈ first :: operations ∧ operation.validate = .ok ()) := by
        funext operation
        apply propext
        rw [List.mem_cons, or_and_right, or_assoc]
        have hfirst : (operation = first ∧ operation.validate = .ok ()) ↔ operation = first := by
          constructor
          · exact And.left
          · rintro rfl
            exact ⟨rfl, hvalid⟩
        rw [hfirst]
      rw [hiff] at hrest
      exact hrest

/-- What was delivered to a fresh state. -/
lemma reflects_deliver (operations : List Operation) :
    Reflects (fun operation => operation ∈ operations ∧ operation.validate = .ok ())
      (StreamState.deliver {} operations) := by
  have h := reflects_empty.deliver operations
  simpa only [false_or] using h

end

/-! ## Equal deliveries -/

/-- The identities that are left out do not show. -/
lemma filterMap_sort {α : Type} (ids : Finset OpId) (f : OpId → Option α) :
    (ids.sort idLe).filterMap f = ((ids.filter fun id => (f id).isSome).sort idLe).filterMap f := by
  have hsort : (ids.filter fun id => (f id).isSome).sort idLe
      = (ids.sort idLe).filter fun id => (f id).isSome := by
    apply List.Perm.eq_of_pairwise fun a b _ _ => Std.Antisymm.antisymm (r := idLe) a b
    · exact Finset.pairwise_sort _ _
    · exact (Finset.pairwise_sort _ _).filter _
    · rw [List.perm_ext_iff_of_nodup (Finset.sort_nodup _ _) ((Finset.sort_nodup _ _).filter _)]
      intro id
      simp
  rw [hsort, List.filterMap_filter]
  apply List.filterMap_congr
  intro id _
  cases f id <;> simp

lemma Reflects.records_eq {other : StreamState} (h : Reflects delivered state)
    (h' : Reflects delivered other) : state.records = other.records := by
  funext id
  apply Option.ext
  intro operation
  rw [h.records, h'.records]

lemma Reflects.conflicts_eq {other : StreamState} (h : Reflects delivered state)
    (h' : Reflects delivered other) : state.conflicts = other.conflicts := by
  ext id
  rw [h.conflicts, h'.conflicts]

lemma Reflects.quarantined_eq {other : StreamState} (h : Reflects delivered state)
    (h' : Reflects delivered other) : state.quarantined = other.quarantined := by
  funext key
  ext id
  rw [h.quarantined, h'.quarantined, h.conflicts_eq h']

lemma Reflects.recordsOf_eq {other : StreamState} (h : Reflects delivered state)
    (h' : Reflects delivered other) (item : ItemId) :
    state.recordsOf item = other.recordsOf item := by
  have hrecords := h.records_eq h'
  unfold recordsOf
  rw [filterMap_sort, filterMap_sort (other.items item), ← hrecords]
  congr 2
  ext id
  rw [Finset.mem_filter, Finset.mem_filter]
  refine and_congr_left fun hsome => ?_
  obtain ⟨operation, hoperation⟩ := Option.isSome_iff_exists.mp hsome
  rw [h.items item id operation hoperation,
    h'.items item id operation (by rw [← hrecords]; exact hoperation)]

/-- Content is the same after the same deliveries. -/
lemma Reflects.content_eq {other : StreamState} (h : Reflects delivered state)
    (h' : Reflects delivered other) {σ : Type} (item block : ItemId) (attempt : Option ItemId)
    (resolve : Payload → σ → Option Bytes × σ) (s : σ) :
    state.content item block attempt resolve s = other.content item block attempt resolve s := by
  unfold content updates
  rw [h.quarantined_eq h', h.conflicts_eq h', h.records_eq h', h.recordsOf_eq h']

/-- A call of `content` returns. -/
lemma content_isSome {σ : Type} (state : StreamState) (item block : ItemId)
    (attempt : Option ItemId) (resolve : Payload → σ → Option Bytes × σ) (s : σ) :
    (state.content item block attempt resolve s).isSome := by
  unfold content
  split
  · rfl
  · dsimp only
    split
    · rfl
    · next hvalid =>
      split
      · rfl
      · rfl
      · next head hhead =>
        have hparts : (Updates.parts resolve _ ∅ (some head) s).isSome :=
          Updates.parts_isSome resolve s (fun id _ => Updates.settles_of_validate hvalid id)
            (by simp)
        split
        · next hnone =>
          rw [hnone] at hparts
          cases hparts
        · rfl
        · rfl

/-! ## Conflicts -/

/-- A quarantined item and attempt reports a conflict. -/
lemma content_of_quarantined {σ : Type} {item : ItemId} {attempt : Option ItemId} {id : OpId}
    (hid : id ∈ state.quarantined (item, attempt)) (block : ItemId)
    (resolve : Payload → σ → Option Bytes × σ) (s : σ) :
    ∃ first ∈ state.quarantined (item, attempt),
      state.content item block attempt resolve s = some (.error (.conflict first), s) := by
  unfold content
  cases hsort : (state.quarantined (item, attempt)).sort idLe with
  | nil =>
    rw [← Finset.mem_sort idLe, hsort] at hid
    cases hid
  | cons first rest =>
    refine ⟨first, ?_, rfl⟩
    rw [← Finset.mem_sort idLe, hsort]
    exact List.mem_cons_self ..

variable [AddressHash]

/-- Replay does not depend on arrival. Operations that are delivered in two orders, with any
repetitions, give the same result for every item, block, attempt and resolver, and the call returns.
An identity that is delivered with two different valid contents has no record and every delivery
under it is refused, and content of each item and attempt that one of its variants names reports a
conflict. An invalid operation changes nothing. -/
theorem replay_ignores_arrival (first second : List Operation)
    (hsame : ∀ operation, operation ∈ first ↔ operation ∈ second) :
    (∀ (σ : Type) (item block : ItemId) (attempt : Option ItemId)
      (resolve : Payload → σ → Option Bytes × σ) (s : σ),
      (deliver {} first).content item block attempt resolve s
          = (deliver {} second).content item block attempt resolve s
        ∧ ((deliver {} first).content item block attempt resolve s).isSome)
    ∧ (∀ a ∈ first, ∀ b ∈ first, a.validate = .ok () → b.validate = .ok () → a.id = b.id → a ≠ b →
      (deliver {} first).records a.id = none
      ∧ (∀ operation, operation.validate = .ok () → operation.id = a.id →
        ((deliver {} first).insert operation).1 = .error (.conflict a.id))
      ∧ ∀ variant ∈ first, variant.validate = .ok () → variant.id = a.id →
        ∀ (σ : Type) (block : ItemId) (resolve : Payload → σ → Option Bytes × σ) (s : σ),
        ∃ id ∈ (deliver {} first).conflicts,
          (deliver {} first).content variant.item block variant.attempt resolve s
            = some (.error (.conflict id), s))
    ∧ ∀ (state : StreamState) (operation : Operation) (error : ValidationError),
      operation.validate = .error error →
      state.insert operation = (.error (.invalid error), state) := by
  have hfirst := reflects_deliver first
  refine ⟨?_, ?_, ?_⟩
  · intro σ item block attempt resolve s
    have hsecond := reflects_deliver second
    simp only [← hsame] at hsecond
    exact ⟨hfirst.content_eq hsecond item block attempt resolve s,
      content_isSome _ item block attempt resolve s⟩
  · intro a ha b hb hvalida hvalidb hid hne
    have hconflict : a.id ∈ (deliver {} first).conflicts :=
      (hfirst.conflicts _).mpr ⟨a, b, ⟨ha, hvalida⟩, ⟨hb, hvalidb⟩, rfl, hid.symm, hne⟩
    refine ⟨?_, ?_, ?_⟩
    · cases hrecord : (deliver {} first).records a.id with
      | none => rfl
      | some record =>
        obtain ⟨-, -, hunique⟩ := (hfirst.records _ _).mp hrecord
        have haa := hunique a ⟨ha, hvalida⟩ rfl
        have hbb := hunique b ⟨hb, hvalidb⟩ hid.symm
        exact absurd (haa.trans hbb.symm) hne
    · intro operation hvalid hoperation
      unfold StreamState.insert
      rw [hvalid, hoperation]
      dsimp only
      rw [if_pos hconflict]
    · intro variant hvariant hvalid hvid σ block resolve s
      have hquarantined : a.id ∈ (deliver {} first).quarantined (variant.item, variant.attempt) :=
        (hfirst.quarantined _ _).mpr ⟨hconflict, variant, ⟨hvariant, hvalid⟩, hvid, rfl⟩
      obtain ⟨id, hmem, hcontent⟩ := content_of_quarantined hquarantined block resolve s
      exact ⟨id, ((hfirst.quarantined _ _).mp hmem).1, hcontent⟩
  · intro state operation error hinvalid
    exact insert_of_invalid state hinvalid

end StreamState

/-! ## A conflict -/

section Streams

/-- Addresses derive one identity; no record here has a source. -/
local instance streamAddresses : AddressHash where
  id _ := messageId

/-- A message that sets its block to a text. -/
def textMessage (text : Bytes) : Operation where
  id := messageId
  item := ⟨1⟩
  author := none
  recorder := ⟨2⟩
  session := none
  turn := none
  timeMs := none
  sequence := some 1
  parents := []
  causes := []
  original := none
  legacy := none
  kind := .message {
    category := .text
    stage := .finished
    audience := []
    blocks := [{
      block := ⟨3⟩
      position := none
      mode := .replace
      previous := none
      mediaType := .empty
      content := .inline text }]
    coverage := none
    outcome := none }

lemma textMessage_valid (text : Bytes) : (textMessage text).validate = .ok () := rfl

/-- Two texts under one identity, delivered twice over in the other order: the content is a conflict
both times. -/
theorem replay_ignores_arrival_texts :
    ∃ id, (StreamState.deliver {} [textMessage [97], textMessage [98]]).content ⟨1⟩ ⟨3⟩ none
          (fun _ (calls : ℕ) => (none, calls + 1)) 0 = some (.error (.conflict id), 0)
      ∧ (StreamState.deliver {} [textMessage [98], textMessage [97], textMessage [98]]).content
          ⟨1⟩ ⟨3⟩ none (fun _ (calls : ℕ) => (none, calls + 1)) 0
        = some (.error (.conflict id), 0) := by
  obtain ⟨hcontent, hconflict, -⟩ := StreamState.replay_ignores_arrival
    [textMessage [97], textMessage [98]] [textMessage [98], textMessage [97], textMessage [98]]
    (by
      intro operation
      simp only [List.mem_cons, List.not_mem_nil, or_false]
      tauto)
  obtain ⟨-, -, hreports⟩ := hconflict (textMessage [97]) (by simp) (textMessage [98]) (by simp)
    (textMessage_valid _) (textMessage_valid _) rfl (by decide)
  obtain ⟨id, -, hfirst⟩ := hreports (textMessage [97]) (by simp) (textMessage_valid _) rfl ℕ ⟨3⟩
    (fun _ calls => (none, calls + 1)) 0
  refine ⟨id, hfirst, ?_⟩
  rw [← (hcontent ℕ ⟨1⟩ ⟨3⟩ none (fun _ calls => (none, calls + 1)) 0).1]
  exact hfirst

end Streams

end EditChain.Activity
